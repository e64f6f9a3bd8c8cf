/-
Calls that block: `sleep` and `waitpid`.  A blocked task is away from the
processor until `check_blocked_tasks` finds what it waits for.  The other tasks
leave its call alone; what ends it otherwise is `signal_task`, where `SIGCONT`
makes a stopped task ready whatever it was doing when it was stopped.
-/
import GlitchedOS.Process.SchedOnly
import GlitchedOS.Process.SignalReturn
import GlitchedOS.Process.TreeSteps

namespace GlitchedOS

variable {k k' k'' : Kernel} {t : Nat}
variable {fuel new : Nat} {r : Int × Kernel} {pid : Int} {env : CloseEnv}

/-! ### The steps of other tasks -/

/-- What a task keeps of the call it is in: its state, what it waits for, and the
frame in which the result is returned. -/
structure TaskCall where
  state : ProcessState
  blockReason : BlockReason
  blockedTicks : BitVec 64
  waitpidFlags : BitVec 32
  iframe : Iframe

def Task.call (x : Task) : TaskCall :=
  ⟨x.state, x.blockReason, x.blockedTicks, x.waitpidFlags, x.iframe⟩

/-- The call of `t` is left alone, and so is the processor. -/
structure Spares (t : Nat) (k k' : Kernel) : Prop where
  call : (k'.tasks t).call = (k.tasks t).call
  allocated : k.allocated ⊆ k'.allocated
  current : k'.current = k.current

namespace Spares

theorem refl (t : Nat) (k : Kernel) : Spares t k k :=
  ⟨rfl, Finset.Subset.refl _, rfl⟩

theorem trans (h : Spares t k k') (h' : Spares t k' k'') : Spares t k k'' where
  call := h'.call.trans h.call
  allocated := h.allocated.trans h'.allocated
  current := h'.current.trans h.current

theorem of_tasks (htasks : k'.tasks = k.tasks) (hallocated : k'.allocated =
    k.allocated) (hcurrent : k'.current = k.current) : Spares t k k' :=
  ⟨by rw [htasks], by rw [hallocated], hcurrent⟩

theorem write (k : Kernel) (u : Nat) {f : Task → Task}
    (hf : ∀ x, (f x).call = x.call) : Spares t k (k.modifyTask u f) :=
  ⟨Kernel.modifyTask_proj Task.call k u t (hf _), Finset.Subset.refl _, rfl⟩

theorem modifyTask (k : Kernel) {u : Nat} (f : Task → Task) (h : u ≠ t) :
    Spares t k (k.modifyTask u f) :=
  ⟨by rw [Kernel.modifyTask_ne k f h.symm], Finset.Subset.refl _, rfl⟩

theorem of_filesOnly (h : FilesOnly k k') : Spares t k k' := by
  have hcall := h.proj Task.call (fun _ _ => rfl) t
  obtain ⟨_, _, _, _, _, rfl⟩ := h
  exact ⟨hcall, Finset.Subset.refl _, rfl⟩

theorem of_linksOnly (h : LinksOnly k k') : Spares t k k' := by
  have hcall := h.proj Task.call (fun _ _ => rfl) t
  obtain ⟨_, rfl⟩ := h
  exact ⟨hcall, Finset.Subset.refl _, rfl⟩

theorem of_pendingOnly (h : PendingOnly k k') : Spares t k k' := by
  have hcall := h.proj Task.call (fun _ _ => rfl) t
  obtain ⟨_, rfl⟩ := h
  exact ⟨hcall, Finset.Subset.refl _, rfl⟩

theorem allocTask (k : Kernel) (phys : PhysMem) (x : Task)
    (h : new ≠ t) : Spares t k (GlitchedOS.allocTask k new phys x) :=
  ⟨by rw [allocTask_ne k phys x h.symm], Finset.subset_insert _ _, rfl⟩

theorem enterSyscall (h : k.current ≠ t) (number : Int) :
    Spares t k (GlitchedOS.enterSyscall k number) := by
  rw [GlitchedOS.enterSyscall]
  exact modifyTask k _ h

theorem leaveSyscall (h : Spares t k r.2)
    (hcurrent : k.current ≠ t) : Spares t k (GlitchedOS.leaveSyscall r) :=
  h.trans (enterSyscall (by rwa [h.current]) _)

theorem sigprocmask (k : Kernel) (how : Int) (set : BitVec 32) :
    Spares t k (GlitchedOS.sigprocmask k how set).2 := by
  have hset : ∀ mask : BitVec 32, Spares t k (k.modifyCurrent fun x =>
      { x with signalMask := mask }) := fun mask => write k _ fun _ => rfl
  rw [GlitchedOS.sigprocmask]
  dsimp only
  split
  · exact hset _
  split
  · exact hset _
  split
  · exact hset _
  · exact refl t k

theorem sigaction (k : Kernel) (sig : Nat) (handler : Handler) :
    Spares t k (GlitchedOS.sigaction k sig handler).2 := by
  rw [GlitchedOS.sigaction]
  split
  · exact refl t k
  split
  · exact refl t k
  · dsimp only
    exact write k _ fun _ => rfl

theorem setsid (k : Kernel) : Spares t k (GlitchedOS.setsid k).2 := by
  rw [GlitchedOS.setsid]
  split
  · exact refl t k
  · dsimp only
    exact write k _ fun _ => rfl

theorem setpgid {pgid : Int}
    (h : GlitchedOS.setpgid fuel k pid pgid = .ok r) : Spares t k r.2 := by
  rcases setpgid_ok h with heq | ⟨u, p, heq⟩
  · rw [heq]
    exact refl t k
  · rw [heq]
    exact write k u fun _ => rfl

theorem setCurrent {u : Nat} (h : Spares t { k with current := u } k') :
    Spares t k { k' with current := k.current } :=
  ⟨h.call, h.allocated, rfl⟩

theorem spawnAction {a : SpawnAction}
    (h : GlitchedOS.spawnAction env fuel k new pid a = .ok r) :
    Spares t k r.2 := by
  rw [GlitchedOS.spawnAction] at h
  dsimp only at h
  split at h
  · obtain rfl := Except.ok.inj h
    exact setCurrent (of_filesOnly (FilesOnly.dup2 _ _ _ _))
  · obtain rfl := Except.ok.inj h
    exact setCurrent (sigprocmask _ _ _)
  · rw [bind_ok_iff] at h
    obtain ⟨r', hset, h⟩ := h
    obtain rfl := Except.ok.inj h
    exact setCurrent (setpgid hset)
  · obtain rfl := Except.ok.inj h
    exact setCurrent (setsid _)
  · obtain rfl := Except.ok.inj h
    exact refl t k

theorem spawnActions {actions : List SpawnAction}
    (h : GlitchedOS.spawnActions env fuel new pid actions k = .ok r) :
    Spares t k r.2 := by
  induction actions generalizing k with
  | nil =>
      obtain rfl := Except.ok.inj h
      exact refl t k
  | cons a rest ih =>
      rw [GlitchedOS.spawnActions, bind_ok_iff] at h
      obtain ⟨⟨res, k₁⟩, hfirst, h⟩ := h
      dsimp only at h
      split at h
      · obtain rfl := Except.ok.inj h
        exact spawnAction hfirst
      · exact (spawnAction hfirst).trans (ih h)

theorem startTask {env : ExecEnv} {parent : Option Nat} (hnew : new ≠ t)
    (h : GlitchedOS.startTask env k parent pid new = .ok r) : Spares t k r.2 := by
  rw [GlitchedOS.startTask, bind_ok_iff] at h
  obtain ⟨⟨res, program, k₁⟩, hload, h⟩ := h
  obtain ⟨phys, rfl⟩ := loadProgram_phys hload
  have hmem : Spares t k { k with phys := phys } := of_tasks rfl rfl rfl
  dsimp only at h
  split at h
  · obtain rfl := Except.ok.inj h
    exact hmem
  split at h
  · cases h
  · obtain rfl := Except.ok.inj h
    exact (hmem.trans (modifyTask _ _ hnew)).trans
      (of_linksOnly (.linkTask _ _ _))

theorem addTask {env : ExecEnv} {args : ExecArgs} {parent : Option Nat} (hnew : new ≠ t)
    (h : GlitchedOS.addTask env fuel k args parent pid new = .ok r) :
    Spares t k r.2 := by
  rw [GlitchedOS.addTask] at h
  split at h
  · obtain rfl := Except.ok.inj h
    exact refl t k
  rw [bind_ok_iff] at h
  obtain ⟨k₁, hmade, h⟩ := h
  obtain ⟨cr3, phys, -, hk₁⟩ := newTask_ok hmade
  have hfirst : Spares t k k₁ := by
    rw [hk₁]
    exact (allocTask k phys _ hnew).trans (of_filesOnly (.addRefs _ _))
  rw [bind_ok_iff] at h
  obtain ⟨⟨res, k₂⟩, hactions, h⟩ := h
  have hsecond := hfirst.trans (spawnActions hactions)
  dsimp only at h hsecond
  split at h
  · obtain rfl := Except.ok.inj h
    exact hsecond
  · exact (hsecond.trans (of_filesOnly (.closeOnExec env.closeEnv new k₂))).trans
      (startTask hnew h)

theorem exit {ret : Int} (hcurrent : k.current ≠ t)
    (h : GlitchedOS.exit env fuel k ret = .ok k') : Spares t k k' := by
  obtain ⟨k₁, -, hk₁, htask⟩ := exit_ok h
  have hclosed : Spares t k k₁ := by
    rw [hk₁]
    exact of_filesOnly (.releaseProcessFds env k)
  obtain ⟨parent, k₂, -, hreparent, rfl⟩ := exitTask_ok htask
  have hzombie : Spares t k₁ (k₁.modifyCurrent fun x =>
      { x with state := .zombie, returnCode := ret }) :=
    modifyTask k₁ _ (by rwa [hclosed.current])
  have htold := hzombie.trans (write _ parent (f := fun x =>
    { x with pendingSignals := x.pendingSignals ||| sigBit sigChld }) fun _ => rfl)
  have hdone := (hclosed.trans htold).trans (of_linksOnly (.reparent hreparent))
  exact ⟨hdone.call, hdone.allocated, hdone.current⟩

theorem deliverSignals (hcurrent : k.current ≠ t)
    (h : GlitchedOS.deliverSignals env fuel k = .ok k') : Spares t k k' := by
  obtain ⟨p, f, g, b, hdone | ⟨-, ret, hexit⟩⟩ := deliverSignals_ok h
  · rw [hdone]
    exact modifyTask k _ hcurrent
  · have hwrite : Spares t k (k.modifyCurrent (·.withSignals p f g b)) :=
      modifyTask k _ hcurrent
    exact hwrite.trans (exit (by rwa [hwrite.current]) hexit)

theorem plain {op : Op} {reports : List (Nat × WaitEvent)}
    (hplain : op.plain = true) (hcurrent : k.current ≠ t)
    (hrun : op.run fuel k = .ok (reports, k')) : Spares t k k' := by
  cases op with
  | userCode regs =>
      obtain ⟨-, rfl⟩ := Prod.mk.inj (Except.ok.inj hrun)
      exact modifyTask k _ hcurrent
  | sigaction sig handler =>
      obtain ⟨-, rfl⟩ := Prod.mk.inj (Except.ok.inj hrun)
      exact leaveSyscall (sigaction k sig handler) hcurrent
  | sigprocmask how set =>
      obtain ⟨-, rfl⟩ := Prod.mk.inj (Except.ok.inj hrun)
      exact leaveSyscall (sigprocmask k how set) hcurrent
  | setpgid pid pgid =>
      rw [Op.run, bind_ok_iff] at hrun
      obtain ⟨r, hset, hk⟩ := hrun
      obtain ⟨-, rfl⟩ := Prod.mk.inj (Except.ok.inj hk)
      exact leaveSyscall (setpgid hset) hcurrent
  | setsid =>
      obtain ⟨-, rfl⟩ := Prod.mk.inj (Except.ok.inj hrun)
      exact leaveSyscall (setsid k) hcurrent
  | fdOpen _ _ | fdClose _ _ | fcntl _ _ _ | dup2 _ _ _ | pipe _ | fdSocket _ _
  | mount _ _ _ _ | unmount _ _ _ =>
      obtain ⟨r, hfiles, rfl⟩ := Op.files_ok rfl hrun
      exact leaveSyscall (of_filesOnly hfiles) hcurrent
  | switchTask _ | deliverSignals _ | runNext | checkBlockedTasks _
  | createKworker _ _ | kworkerExit | sleep _ | fork _ | spawn _ _ _ _
  | execve _ _ _ _ | exit _ _ | waitpid _ _ _ | kill _ _ | raise _ =>
      cases hplain

theorem fork (hcurrent : k.current ≠ t) (hnew : new ≠ t)
    (h : GlitchedOS.fork k new = .ok k') : Spares t k k' := by
  obtain ⟨cr3, phys, k₁, -, hk₁, rfl⟩ := fork_ok h
  have hmade : Spares t k k₁ := by
    rw [hk₁]
    exact (allocTask k phys _ hnew).trans (of_filesOnly (.addRefs _ _))
  have hlinked := hmade.trans (of_linksOnly (.linkTask k₁ new k₁.current))
  have hcur : (linkTask k₁ new k₁.current).current ≠ t := by
    rwa [hlinked.current]
  obtain ⟨k₂, hk₂⟩ : ∃ k₂, k₂ = { linkTask k₁ new k₁.current with
    lastPid := (linkTask k₁ new k₁.current).lastPid + 1, switching := true } :=
    ⟨_, rfl⟩
  have hnumber : Spares t k k₂ := by
    rw [hk₂]
    exact hlinked.trans (of_tasks rfl rfl rfl)
  have hcur₂ : k₂.current ≠ t := by rwa [hnumber.current]
  rw [forkLink, ← hk₂]
  exact hnumber.trans ((modifyTask k₂ _ hnew).trans (modifyTask _ _ hcur₂))

theorem createKworker {regs : Iframe} (hnew : new ≠ t)
    (h : GlitchedOS.createKworker k new regs = .ok k') : Spares t k k' := by
  obtain ⟨cr3, phys, -, rfl⟩ := createKworker_ok h
  have hcount : Spares t k { k with lastPid := k.lastPid + 1 } :=
    of_tasks rfl rfl rfl
  exact (hcount.trans (allocTask _ phys _ hnew)).trans (write _ _ fun _ => rfl)

theorem sysSpawn {env : ExecEnv} {pathRes : Int}
    {args : ExecArgs} (hcurrent : k.current ≠ t) (hnew : new ≠ t)
    (h : GlitchedOS.sysSpawn env fuel k pathRes args new = .ok k') :
    Spares t k k' := by
  have henter := enterSyscall hcurrent 54
  have hentered : (GlitchedOS.enterSyscall k 54).current ≠ t := by
    rwa [henter.current]
  rw [GlitchedOS.sysSpawn] at h
  dsimp only at h
  split at h
  · obtain rfl := Except.ok.inj h
    exact henter.trans (enterSyscall hentered _)
  rw [bind_ok_iff] at h
  obtain ⟨⟨res, k₁⟩, hspawn, h⟩ := h
  obtain ⟨k₂, hadd, hend⟩ := spawn_ok hspawn
  have hcount : Spares t (GlitchedOS.enterSyscall k 54)
      { GlitchedOS.enterSyscall k 54 with
        lastPid := (GlitchedOS.enterSyscall k 54).lastPid + 1 } :=
    of_tasks rfl rfl rfl
  have hadded := (henter.trans hcount).trans (addTask hnew hadd)
  have hdone : Spares t k k₁ := by
    rcases hend with ⟨-, rfl⟩ | ⟨-, rfl⟩
    · exact hadded
    · have hready : Spares t k₂ (k₂.modifyCurrent fun x => { x with
          state := .ready, iframe := { x.iframe with rax := res } }) :=
        modifyTask k₂ _ (by rwa [hadded.current])
      exact ⟨(hadded.trans hready).call, (hadded.trans hready).allocated,
        (hadded.trans hready).current⟩
  dsimp only at h
  split at h
  · obtain rfl := Except.ok.inj h
    exact hdone
  · obtain rfl := Except.ok.inj h
    exact hdone.trans (enterSyscall (by rwa [hdone.current]) _)

theorem sysExecve {env : ExecEnv} {pathRes : Int}
    {args : ExecArgs} (hcurrent : k.current ≠ t) (hnew : new ≠ t)
    (h : GlitchedOS.sysExecve env fuel k pathRes args new = .ok k') :
    Spares t k k' := by
  have henter := enterSyscall hcurrent 12
  have hentered : (GlitchedOS.enterSyscall k 12).current ≠ t := by
    rwa [henter.current]
  rw [GlitchedOS.sysExecve] at h
  dsimp only at h
  split at h
  · obtain rfl := Except.ok.inj h
    exact henter.trans (enterSyscall hentered _)
  rw [bind_ok_iff] at h
  obtain ⟨⟨res, k₁⟩, hexec, h⟩ := h
  obtain ⟨k₂, hadd, hend⟩ := execve_ok hexec
  have hadded := henter.trans (addTask hnew hadd)
  have hdone : Spares t k k₁ := by
    rcases hend with ⟨-, rfl⟩ | ⟨-, ring, k₃, k₄, -, hk₃, hk₄, hfinish⟩
    · exact hadded
    have hdeleted := hadded.trans (modifyTask k₂ (fun x : Task =>
      { x with state := .deleted }) hentered)
    obtain ⟨k₅, hreparent, rfl⟩ := execveFinish_ok hfinish
    have hwaiters : Spares t k k₃ := by
      have hq := redirectWaiters_life (GlitchedOS.enterSyscall k 12).current new
        (ring.tail ++ [initTask]) (k₂.modifyTask
          (GlitchedOS.enterSyscall k 12).current fun x =>
            { x with state := .deleted })
      rw [← hk₃] at hq
      refine hdeleted.trans ⟨?_, hq.allocated ▸ Finset.Subset.refl _, hq.current⟩
      rw [hk₃]
      exact redirectWaiters_proj Task.call (fun _ _ => rfl) _ new _ _ t
    have hclosed : Spares t k₃ k₄ := by
      rw [hk₄]
      exact of_filesOnly (.releaseProcessFds env.closeEnv k₃)
    have hlast := (hwaiters.trans hclosed).trans
      (of_linksOnly (.reparent hreparent))
    exact ⟨hlast.call, hlast.allocated, hlast.current⟩
  dsimp only at h
  split at h
  · obtain rfl := Except.ok.inj h
    exact hdone
  · obtain rfl := Except.ok.inj h
    exact hdone.trans (enterSyscall (by rwa [hdone.current]) _)

end Spares

/-! ### Signals and events -/

/-- What the loop of `kill` does to the call of `t`: nothing, or it stops the task,
or it continues a stopped task. -/
theorem killLoop_call {sig : Nat} (t : Nat) (l : List Nat) (k : Kernel) :
    (((killLoop pid sig l k).2.tasks t).call = (k.tasks t).call ∨
      (sig ≠ sigCont ∧ ((killLoop pid sig l k).2.tasks t).call =
        { (k.tasks t).call with state := .stopped }) ∨
      (sig = sigCont ∧ killTarget k pid t = true ∧
        (k.tasks t).state = .stopped ∧
        ((killLoop pid sig l k).2.tasks t).call =
          { (k.tasks t).call with state := .ready })) := by
  induction l generalizing k with
  | nil => exact Or.inl rfl
  | cons u rest ih =>
      rw [killLoop]
      split
      swap
      · exact ih k
      rename_i htarget
      have hkill := ih (signalTask k u sig)
      rw [killTarget_signalTask] at hkill
      have hcall : ((signalTask k u sig).tasks t).call =
          ((k.modifyTask u (·.signalled sig)).tasks t).call :=
        (signalTask_pending k u sig).proj Task.call (fun _ _ => rfl) t
      by_cases hu : u = t
      swap
      · have hsame : ((signalTask k u sig).tasks t).call = (k.tasks t).call := by
          rw [hcall, Kernel.modifyTask_ne _ _ (Ne.symm hu)]
        have hstate := congrArg TaskCall.state hsame
        rw [hsame, show ((signalTask k u sig).tasks t).state =
          (k.tasks t).state from hstate] at hkill
        exact hkill
      subst hu
      rw [Kernel.modifyTask_self, Task.signalled] at hcall
      rw [Bool.and_eq_true] at htarget
      by_cases hstop : stops (k.tasks u) sig = true
      · rw [if_pos hstop] at hcall
        have hne := stops_ne_sigCont hstop
        rcases hkill with hsame | ⟨-, hsame⟩ | ⟨hcont, -⟩
        · exact Or.inr (Or.inl ⟨hne, hsame.trans hcall⟩)
        · exact Or.inr (Or.inl ⟨hne, by rw [hsame, hcall]; rfl⟩)
        · exact absurd hcont hne
      rw [if_neg hstop] at hcall
      by_cases hcont : sig = sigCont ∧ (k.tasks u).state = .stopped
      · rw [if_pos hcont] at hcall
        rcases hkill with hsame | ⟨hne, -⟩ | ⟨-, -, hstopped, -⟩
        · exact Or.inr (Or.inr ⟨hcont.1, htarget.1, hcont.2, hsame.trans hcall⟩)
        · exact absurd hcont.1 hne
        · cases (congrArg TaskCall.state hcall).symm.trans hstopped
      · rw [if_neg hcont] at hcall
        have hstate := congrArg TaskCall.state hcall
        rw [hcall, show ((signalTask k u sig).tasks u).state =
          (k.tasks u).state from hstate] at hkill
        exact hkill

theorem killLoop_kept (pid : Int) (sig : Nat) (l : List Nat) (k : Kernel) :
    (killLoop pid sig l k).2.allocated = k.allocated ∧
      (killLoop pid sig l k).2.current = k.current ∧
      (killLoop pid sig l k).2.switching = k.switching := by
  induction l generalizing k with
  | nil => exact ⟨rfl, rfl, rfl⟩
  | cons u rest ih =>
      rw [killLoop]
      split
      swap
      · exact ih k
      obtain ⟨_, hpending⟩ := signalTask_pending k u sig
      obtain ⟨hallocated, hcurrent, hswitching⟩ := ih (signalTask k u sig)
      refine ⟨hallocated.trans ?_, hcurrent.trans ?_, hswitching.trans ?_⟩ <;>
        rw [hpending] <;> rfl

/-- Taking an event of a child off leaves the call of a task that is no zombie. -/
theorem Spares.consumeEvent {child : Nat} {flags : BitVec 32} {event : WaitEvent}
    (hevent : waitEvent (k.tasks child) flags = some event)
    (halive : (k.tasks t).state ≠ .zombie) (k₁ : Kernel) :
    Spares t k₁ (GlitchedOS.consumeEvent k₁ child event) := by
  have hwrite : Spares t k₁ (k₁.modifyTask child fun x =>
      { x with waitpidEvent := 0 }) := .write k₁ child fun _ => rfl
  cases event with
  | terminated =>
      rw [GlitchedOS.consumeEvent]
      refine .modifyTask k₁ _ ?_
      rintro rfl
      exact halive (waitEvent_zombie hevent)
  | stopped => exact hwrite
  | continued => exact hwrite

theorem Spares.storeStatus (k : Kernel) (cr3 : Nat) (wstatus : Option Nat)
    (word : BitVec 32) :
    Spares t k (GlitchedOS.storeStatus k cr3 wstatus word) := by
  cases wstatus with
  | none => exact .refl t k
  | some addr => exact .of_tasks rfl rfl rfl

theorem Spares.unblock (k : Kernel) {u : Nat} (hu : u ≠ t) (rax : Int) :
    Spares t k (GlitchedOS.unblock k u rax) := by
  rw [GlitchedOS.unblock]
  exact .modifyTask k _ hu

theorem Spares.checkDelay (reduceTicks : Bool) (k : Kernel) {u : Nat}
    (hu : u ≠ t) : Spares t k (GlitchedOS.checkDelay reduceTicks k u) := by
  rw [GlitchedOS.checkDelay]
  generalize hk₁ : (if reduceTicks = true then k.modifyTask u fun x =>
    { x with blockedTicks := x.blockedTicks - 1#64 } else k) = k₁
  have h₁ : Spares t k k₁ := by
    rw [← hk₁]
    split
    · exact .modifyTask k _ hu
    · exact .refl t k
  generalize hk₂ : (if (k₁.tasks u).blockedTicks = 0#64 then k₁.modifyTask u
    fun x => { x with state := .ready, blockReason := .none } else k₁) = k₂
  have h₂ : Spares t k k₂ := by
    rw [← hk₂]
    split
    · exact h₁.trans (.modifyTask k₁ _ hu)
    · exact h₁
  split
  · exact (h₂.trans (.unblock k₂ hu _)).trans (.modifyTask _ _ hu)
  · exact h₂

theorem Spares.checkBlockedTask {u : Nat} {reduceTicks : Bool}
    {report : Option (Nat × WaitEvent)} (hu : u ≠ t)
    (halive : (k.tasks t).state ≠ .zombie)
    (h : GlitchedOS.checkBlockedTask fuel reduceTicks k u = .ok (report, k')) :
    Spares t k k' := by
  rw [GlitchedOS.checkBlockedTask] at h
  split at h
  · obtain ⟨-, rfl⟩ := Prod.mk.inj (Except.ok.inj h)
    exact .refl t k
  split at h
  · obtain ⟨-, rfl⟩ := Prod.mk.inj (Except.ok.inj h)
    exact .refl t k
  · obtain ⟨-, rfl⟩ := Prod.mk.inj (Except.ok.inj h)
    exact .checkDelay reduceTicks k hu
  split at h
  · rename_i child _
    have hclear : ∀ (k : Kernel) (rax : Int), Spares t k ((GlitchedOS.unblock k u
        rax).modifyTask u fun x => { x with blockedProcess := none }) :=
      fun k rax => (Spares.unblock k hu rax).trans (.modifyTask _ _ hu)
    rw [GlitchedOS.checkWaitChild] at h
    dsimp only at h
    split at h
    · rename_i event hevent
      obtain ⟨-, rfl⟩ := Prod.mk.inj (Except.ok.inj h)
      exact ((Spares.storeStatus k _ _ _).trans
        (.consumeEvent hevent halive _)).trans (hclear _ _)
    · split at h
      · obtain ⟨-, rfl⟩ := Prod.mk.inj (Except.ok.inj h)
        exact hclear k _
      · obtain ⟨-, rfl⟩ := Prod.mk.inj (Except.ok.inj h)
        exact .refl t k
  · rw [GlitchedOS.checkWaitAny] at h
    dsimp only at h
    rw [bind_ok_iff] at h
    obtain ⟨target, -, h⟩ := h
    split at h
    · obtain ⟨-, rfl⟩ := Prod.mk.inj (Except.ok.inj h)
      split
      · exact .unblock k hu _
      · exact .refl t k
    split at h
    · obtain ⟨-, rfl⟩ := Prod.mk.inj (Except.ok.inj h)
      exact .refl t k
    rename_i event hevent
    obtain ⟨-, rfl⟩ := Prod.mk.inj (Except.ok.inj h)
    refine .trans ?_ (.unblock _ hu _)
    split
    · exact .storeStatus k _ _ _
    · exact (Spares.storeStatus k _ _ _).trans (.consumeEvent hevent halive _)

theorem Spares.checkBlockedLoop {reduceTicks : Bool} {l : List Nat}
    {reports : List (Nat × WaitEvent)} (hl : t ∉ l)
    (halive : (k.tasks t).state ≠ .zombie)
    (h : GlitchedOS.checkBlockedLoop fuel reduceTicks l k = .ok (reports, k')) :
    Spares t k k' := by
  induction l generalizing k reports with
  | nil =>
      obtain ⟨-, rfl⟩ := Prod.mk.inj (Except.ok.inj h)
      exact .refl t k
  | cons u rest ih =>
      rw [GlitchedOS.checkBlockedLoop, bind_ok_iff] at h
      obtain ⟨⟨report, k₁⟩, hone, h⟩ := h
      dsimp only at h
      rw [bind_ok_iff] at h
      obtain ⟨⟨reports, k₂⟩, hrest, h⟩ := h
      obtain ⟨-, rfl⟩ := Prod.mk.inj (Except.ok.inj h)
      rw [List.mem_cons, not_or] at hl
      have hfirst := Spares.checkBlockedTask (Ne.symm hl.1) halive hone
      have halive₁ : (k₁.tasks t).state ≠ .zombie := by
        rwa [show (k₁.tasks t).state = (k.tasks t).state from
          congrArg TaskCall.state hfirst.call]
      exact hfirst.trans (ih hl.2 halive₁ hrest)

/-- A pass over the ring, taken apart at the one visit to `t`. -/
theorem checkBlockedLoop_visit {reduceTicks : Bool} {l : List Nat}
    {reports : List (Nat × WaitEvent)} (hnodup : l.Nodup)
    (halive : (k.tasks t).state ≠ .zombie)
    (h : checkBlockedLoop fuel reduceTicks l k = .ok (reports, k')) :
    Spares t k k' ∨ ∃ k₁ report k₂, Spares t k k₁ ∧ WaitOnly k k₁ ∧
      checkBlockedTask fuel reduceTicks k₁ t = .ok (report, k₂) ∧
      ((k₂.tasks t).state ≠ .zombie → Spares t k₂ k') := by
  induction l generalizing k reports with
  | nil =>
      obtain ⟨-, rfl⟩ := Prod.mk.inj (Except.ok.inj h)
      exact Or.inl (.refl t k)
  | cons u rest ih =>
      rw [checkBlockedLoop, bind_ok_iff] at h
      obtain ⟨⟨report, k₁⟩, hone, h⟩ := h
      dsimp only at h
      rw [bind_ok_iff] at h
      obtain ⟨⟨reports, k₂⟩, hrest, h⟩ := h
      obtain ⟨-, rfl⟩ := Prod.mk.inj (Except.ok.inj h)
      obtain ⟨hnot, hnodup⟩ := List.nodup_cons.mp hnodup
      by_cases hu : u = t
      · subst hu
        exact Or.inr ⟨k, report, k₁, .refl u k, .refl k, hone,
          fun hz => .checkBlockedLoop hnot hz hrest⟩
      · have hfirst := Spares.checkBlockedTask hu halive hone
        have halive₁ : (k₁.tasks t).state ≠ .zombie := by
          rwa [show (k₁.tasks t).state = (k.tasks t).state from
            congrArg TaskCall.state hfirst.call]
        rcases ih hnodup halive₁ hrest with hsame |
          ⟨k₃, report', k₄, hbefore, hwait, hvisit, hafter⟩
        · exact Or.inl (hfirst.trans hsame)
        · exact Or.inr ⟨k₃, report', k₄, hfirst.trans hbefore,
            (WaitOnly.checkBlockedTask hone).trans hwait, hvisit, hafter⟩

/-! ### Calls that block -/

/-- The calls a task can block in, with what decides their result. -/
inductive BlockedCall where
  | sleep (ms : BitVec 64)
  | waitpid (options : BitVec 32)

/-- The kernel, with the timer ticks since the call. -/
structure CallState where
  kernel : Kernel
  elapsed : Nat

/-- The timer ticks of an operation. -/
def Op.ticks : Op → Nat
  | .checkBlockedTasks true => 1
  | _ => 0

def CallStep (s : CallState) (op : Op) (s' : CallState) : Prop :=
  Step s.kernel op s'.kernel ∧ s'.elapsed = s.elapsed + op.ticks

/-- The task is in a call that blocks, or was stopped in it. -/
def Task.Suspended (x : Task) : Prop := x.state = .blocked ∨ x.state = .stopped

/-- The operation is a `SIGCONT` for the stopped task `t`. -/
def Op.continues (k : Kernel) (t : Nat) : Op → Prop
  | .kill pid sig =>
      sig = sigCont ∧ killTarget k pid t = true ∧ (k.tasks t).state = .stopped
  | _ => False

/-- The call of `t` is entered by the step from `k` to `k'`: `t` is the running
task and blocks. -/
structure BlockedCall.Entered (call : BlockedCall) (t : Nat) (k k' : Kernel) :
    Prop where
  current : k.current = t
  mem : t ∈ k.allocated
  ne_idle : t ≠ idleTask
  awake : (k.tasks t).state ≠ .blocked
  blocked : (k'.tasks t).state = .blocked
  step : match call with
    | .sleep ms => Step k (.sleep ms) k'
    | .waitpid options => ∃ pid wstatus, Step k (.waitpid pid wstatus options) k'

/-- Signal `i + 1` may be delivered, and a handler or the end of the process is
what comes of it. -/
def disturbs (x : Task) (i : Nat) : Bool :=
  (deliverable x).getLsbD i && match x.signalHandlers (i + 1) with
    | .dfl => decide (signalDefaultActions (i + 1) = .terminate)
    | .ign => false
    | .user _ => true

/-- Signal `i + 1` may be delivered, and stops the process. -/
def stopPending (x : Task) (i : Nat) : Bool :=
  (deliverable x).getLsbD i && decide (x.signalHandlers (i + 1) = .dfl) &&
    decide (signalDefaultActions (i + 1) = .stop)

/-- A step while `t` is in the call, and has no handled or terminating signal. -/
def SuspendedStep (t : Nat) (s : CallState) (op : Op) (s' : CallState) : Prop :=
  (s.kernel.tasks t).Suspended ∧
    (∀ i < 31, disturbs (s.kernel.tasks t) i = false) ∧ CallStep s op s'

/-- The child that the waiting task `t` finds with an event. -/
structure FindsEvent (k : Kernel) (t : Nat) (options : BitVec 32) (child : Nat)
    (event : WaitEvent) : Prop where
  event : waitEvent (k.tasks child) options = some event
  target : (k.tasks t).blockedProcess = some child ∨
    ((k.tasks t).blockedProcess = none ∧ ∃ fuel,
      firstWaitpidTarget k options fuel (k.tasks t).child = .ok (some child))

/-- What the call has to have when it returns: the ticks asked for have passed and
`rax` is zero, or a child has an event and `rax` is its process number.  The child
is found when the pass of `check_blocked_tasks` comes to `t`. -/
def BlockedCall.Honoured (call : BlockedCall) (t : Nat) (s s' : CallState) : Prop :=
  match call with
  | .sleep ms => ms.toNat ≤ s'.elapsed ∧ (s'.kernel.tasks t).iframe.rax = 0
  | .waitpid options => ∃ k₁ child event, WaitOnly s.kernel k₁ ∧
      FindsEvent k₁ t options child event ∧
      (s'.kernel.tasks t).iframe.rax = (s.kernel.tasks child).pid

/-- A stopped task that is made ready gets what the call would have given it: only
a sleep, and only when it is over. -/
def BlockedCall.Over (call : BlockedCall) (elapsed : Nat) : Prop :=
  match call with
  | .sleep ms => ms.toNat ≤ elapsed
  | .waitpid _ => False

/-- `SIGCONT` comes to the stopped task only when its sleep is over, and never to a
task stopped in `waitpid`; and a blocked task has no stop signal left pending, which
`signal_task` leaves when it stops a task that is stopped. -/
def BlockedCall.Uncut (call : BlockedCall) (t : Nat) (s : CallState) (op : Op) :
    Prop :=
  (op.continues s.kernel t → call.Over s.elapsed) ∧
  ((s.kernel.tasks t).state = .blocked →
    ∀ i < 31, stopPending (s.kernel.tasks t) i = false)

/-- A step while `t` is in the call that does not cut it short. -/
def BlockedCall.UncutStep (call : BlockedCall) (t : Nat) (s : CallState) (op : Op)
    (s' : CallState) : Prop :=
  call.Uncut t s op ∧ SuspendedStep t s op s'

/-- What the task keeps of the call while it is in it. -/
def BlockedCall.Kept (call : BlockedCall) (c : TaskCall) (elapsed : Nat) : Prop :=
  match call with
  | .sleep ms => c.blockReason = .delay ∧ c.blockedTicks ≠ 0#64 ∧
      ms.toNat ≤ c.blockedTicks.toNat + elapsed ∧ c.iframe.rax = 0
  | .waitpid options => c.blockReason = .waitpid ∧ c.waitpidFlags = options

/-- The task `t` is in the call, and away from the processor. -/
structure InCall (call : BlockedCall) (t : Nat) (s : CallState) : Prop where
  mem : t ∈ s.kernel.allocated
  ne_idle : t ≠ idleTask
  away : s.kernel.switching = false → s.kernel.current ≠ t
  suspended : (s.kernel.tasks t).Suspended
  kept : call.Kept (s.kernel.tasks t).call s.elapsed

/-- `has_pending_signals` looks for a signal that may be delivered and does something. -/
theorem hasPendingSignals_eq (x : Task) :
    hasPendingSignals x =
      (!x.inSignal && (List.range 31).any fun i => disturbs x i || stopPending x i) := by
  rw [hasPendingSignals]
  congr 2
  funext i
  rw [disturbs, stopPending, deliverable]
  generalize (x.pendingSignals &&& ~~~x.signalMask).getLsbD i = bit
  cases bit with
  | false => simp
  | true =>
      cases hhandler : x.signalHandlers (i + 1) with
      | ign => simp
      | user addr => simp
      | dfl => cases haction : signalDefaultActions (i + 1) <;> simp

theorem hasPendingSignals_false {x : Task} (hcalm : ∀ i < 31, disturbs x i = false)
    (hstop : ∀ i < 31, stopPending x i = false) : hasPendingSignals x = false := by
  rw [hasPendingSignals_eq, Bool.and_eq_false_iff]
  right
  rw [List.any_eq_false]
  intro i hi
  rw [hcalm i (List.mem_range.mp hi), hstop i (List.mem_range.mp hi)]
  exact Bool.false_ne_true

/-- `check_blocked_tasks` on the sleeping task, when no signal interrupts it. -/
theorem checkDelay_call (reduceTicks : Bool)
    (hcalm : hasPendingSignals (k.tasks t) = false) :
    ((checkDelay reduceTicks k t).tasks t).call =
      let ticks := if reduceTicks then (k.tasks t).blockedTicks - 1#64
        else (k.tasks t).blockedTicks
      if ticks = 0#64 then { (k.tasks t).call with
        state := .ready, blockReason := .none, blockedTicks := ticks }
      else { (k.tasks t).call with blockedTicks := ticks } := by
  rw [checkDelay]
  obtain ⟨k₁, hk₁⟩ : ∃ k₁, k₁ = if reduceTicks then k.modifyTask t fun x =>
    { x with blockedTicks := x.blockedTicks - 1#64 } else k := ⟨_, rfl⟩
  have hfirst : WaitOnly k k₁ ∧ (k₁.tasks t).call = { (k.tasks t).call with
      blockedTicks := if reduceTicks then (k.tasks t).blockedTicks - 1#64
        else (k.tasks t).blockedTicks } := by
    rw [hk₁]
    split
    · refine ⟨.modifyTask k t fun _ => rfl, ?_⟩
      rw [Kernel.modifyTask_self]
      rfl
    · exact ⟨.refl k, rfl⟩
  have hticks := congrArg TaskCall.blockedTicks hfirst.2
  obtain ⟨k₂, hk₂⟩ : ∃ k₂, k₂ = if (k₁.tasks t).blockedTicks = 0#64 then
    k₁.modifyTask t fun x => { x with state := .ready, blockReason := .none }
    else k₁ := ⟨_, rfl⟩
  have hsecond : WaitOnly k k₂ ∧ (k₂.tasks t).call =
      if (k₁.tasks t).blockedTicks = 0#64 then { (k₁.tasks t).call with
        state := .ready, blockReason := .none } else (k₁.tasks t).call := by
    rw [hk₂]
    split
    · refine ⟨hfirst.1.trans (.modifyTask k₁ t fun _ => rfl), ?_⟩
      rw [Kernel.modifyTask_self]
      rfl
    · exact ⟨hfirst.1, rfl⟩
  have hcalm₂ : hasPendingSignals (k₂.tasks t) = false :=
    (hsecond.1.proj hasPendingSignals (fun _ _ _ _ _ _ _ => rfl) t).trans hcalm
  rw [← hk₁, ← hk₂, hcalm₂, if_neg Bool.false_ne_true, hsecond.2, hfirst.2,
    show (k₁.tasks t).blockedTicks = _ from hticks]

theorem unblock_call (k : Kernel) (t : Nat) (rax : Int) :
    ((unblock k t rax).tasks t).state = .ready ∧
      ((unblock k t rax).tasks t).iframe.rax = rax := by
  rw [unblock, Kernel.modifyTask_self]
  exact ⟨rfl, rfl⟩

/-- `check_blocked_tasks` on the waiting task, when no signal interrupts it: the
call goes on, or a child with an event is found. -/
theorem checkWait_call {reduceTicks : Bool} {report : Option (Nat × WaitEvent)}
    (hcalm : hasPendingSignals (k.tasks t) = false)
    (hreason : (k.tasks t).blockReason = .waitpid)
    (h : checkBlockedTask fuel reduceTicks k t = .ok (report, k')) :
    (k'.tasks t).call = (k.tasks t).call ∨ ∃ child event,
      FindsEvent k t (k.tasks t).waitpidFlags child event ∧
      (k'.tasks t).state = .ready ∧
      (k'.tasks t).iframe.rax = (k.tasks child).pid := by
  have hpid : ∀ child event (k₁ : Kernel), WaitOnly k k₁ →
      ((consumeEvent k₁ child event).tasks child).pid = (k.tasks child).pid :=
    fun child event k₁ hk => (hk.trans (.consumeEvent k₁ child event)).proj Task.pid
      (fun _ _ _ _ _ _ _ => rfl) child
  rw [checkBlockedTask] at h
  split at h
  · obtain ⟨-, rfl⟩ := Prod.mk.inj (Except.ok.inj h)
    exact Or.inl rfl
  rw [hreason] at h
  dsimp only at h
  split at h
  · rename_i child hchild
    rw [checkWaitChild] at h
    dsimp only at h
    split at h
    · rename_i event hevent
      obtain ⟨-, rfl⟩ := Prod.mk.inj (Except.ok.inj h)
      refine Or.inr ⟨child, event, ⟨hevent, Or.inl hchild⟩, ?_⟩
      obtain ⟨hready, hrax⟩ := unblock_call (consumeEvent (storeStatus k _ _ _)
        child event) t _
      rw [Kernel.modifyTask_self]
      exact ⟨hready, hrax.trans (hpid child event _ (.storeStatus k _ _ _))⟩
    · rw [if_neg (by rw [hcalm]; exact Bool.false_ne_true)] at h
      obtain ⟨-, rfl⟩ := Prod.mk.inj (Except.ok.inj h)
      exact Or.inl rfl
  · rename_i hchild
    rw [checkWaitAny] at h
    dsimp only at h
    rw [bind_ok_iff] at h
    obtain ⟨target, htarget, h⟩ := h
    split at h
    · rw [if_neg (by rw [hcalm]; exact Bool.false_ne_true)] at h
      obtain ⟨-, rfl⟩ := Prod.mk.inj (Except.ok.inj h)
      exact Or.inl rfl
    rename_i child
    split at h
    · obtain ⟨-, rfl⟩ := Prod.mk.inj (Except.ok.inj h)
      exact Or.inl rfl
    rename_i event hevent
    obtain ⟨-, rfl⟩ := Prod.mk.inj (Except.ok.inj h)
    refine Or.inr ⟨child, event, ⟨hevent, Or.inr ⟨hchild, fuel, htarget⟩⟩, ?_⟩
    obtain ⟨hready, hrax⟩ := unblock_call (if event = .terminated ∧
      (k.tasks t).wstatus = none then _ else _) t _
    refine ⟨hready, hrax.trans ?_⟩
    split
    · exact (WaitOnly.storeStatus k _ _ _).proj Task.pid
        (fun _ _ _ _ _ _ _ => rfl) child
    · exact hpid child event _ (.storeStatus k _ _ _)

/-! ### One step -/

theorem BlockedCall.Kept.mono {call : BlockedCall} {c : TaskCall}
    {elapsed elapsed' : Nat} (h : call.Kept c elapsed) (hle : elapsed ≤ elapsed') :
    call.Kept c elapsed' := by
  cases call with
  | sleep ms =>
      obtain ⟨hreason, hticks, hbound, hrax⟩ := h
      exact ⟨hreason, hticks, by omega, hrax⟩
  | waitpid options => exact h

theorem BlockedCall.Kept.setState {call : BlockedCall} {c : TaskCall}
    {elapsed : Nat} (h : call.Kept c elapsed) (state : ProcessState) :
    call.Kept { c with state := state } elapsed := by
  cases call with
  | sleep ms => exact h
  | waitpid options => exact h

theorem InCall.of_call {call : BlockedCall} {s s' : CallState}
    (h : InCall call t s) (hle : s.elapsed ≤ s'.elapsed)
    (hcall : (s'.kernel.tasks t).call = (s.kernel.tasks t).call)
    (hmem : t ∈ s'.kernel.allocated)
    (haway : s'.kernel.switching = false → s'.kernel.current ≠ t) :
    InCall call t s' where
  mem := hmem
  ne_idle := h.ne_idle
  away := haway
  suspended := by
    rw [Task.Suspended, show (s'.kernel.tasks t).state = (s.kernel.tasks t).state
      from congrArg TaskCall.state hcall]
    exact h.suspended
  kept := hcall ▸ h.kept.mono hle

theorem InCall.of_spares {call : BlockedCall} {s s' : CallState}
    (h : InCall call t s) (hle : s.elapsed ≤ s'.elapsed)
    (hcurrent : s.kernel.current ≠ t) (hspares : Spares t s.kernel s'.kernel) :
    InCall call t s' :=
  h.of_call hle hspares.call (hspares.allocated h.mem)
    fun _ => by rwa [hspares.current]

theorem Task.Suspended.ne {x : Task} (h : x.Suspended) :
    x.state ≠ .ready ∧ x.state ≠ .zombie ∧ x.state ≠ .deleted := by
  rcases h with h | h <;> rw [h] <;> decide

/-- `run_next` of another task frees no task that is in a call. -/
theorem runNext_call (hcurrent : k.current ≠ t)
    (hsuspended : (k.tasks t).Suspended) (hmem : t ∈ k.allocated)
    (h : runNext fuel k = .ok k') :
    (k'.tasks t).call = (k.tasks t).call ∧ t ∈ k'.allocated ∧
      k'.switching = true := by
  have hswitching := runNext_switching h
  rw [runNext, bind_ok_iff] at h
  obtain ⟨k₁, hgc, h⟩ := h
  obtain rfl := Except.ok.inj h
  rw [gcTasks] at hgc
  have hcollected := gcLoop_collected hgc
  have hready : ((k.modifyCurrent fun x => if x.state = .running then
      { x with state := .ready } else x).tasks t) = k.tasks t :=
    Kernel.modifyTask_ne k _ hcurrent.symm
  refine ⟨?_, ?_, hswitching⟩
  · refine (hcollected.links Task.call (fun _ _ => rfl) t).trans ?_
    rw [hready]
  · by_contra hout
    have hdeleted := hcollected.freed t hmem hout
    rw [hready] at hdeleted
    exact hsuspended.ne.2.2 hdeleted

theorem ringFrom_chain {n u : Nat} {l : List Nat} (h : ringFrom k n u = .ok l) :
    Chain (ringNext k) (some u) l := by
  induction n generalizing u l with
  | zero => cases h
  | succ n ih =>
      rw [ringFrom] at h
      split at h
      · rename_i hlast
        obtain rfl := Except.ok.inj h
        exact ⟨rfl, by rw [ringNext, if_pos hlast]; rfl⟩
      · rename_i hmore
        rw [bind_ok_iff] at h
        obtain ⟨rest, hrest, h⟩ := h
        obtain rfl := Except.ok.inj h
        refine ⟨rfl, ?_⟩
        rw [ringNext, if_neg hmore]
        exact ih hrest

/-- A timer pass: the call goes on, or it is over. -/
theorem InCall.checkBlockedTasks {call : BlockedCall} {s : CallState}
    (h : InCall call t s) {reduceTicks : Bool}
    {reports : List (Nat × WaitEvent)}
    (hcalm : (s.kernel.tasks t).state = .blocked →
      hasPendingSignals (s.kernel.tasks t) = false)
    (hrun : GlitchedOS.checkBlockedTasks fuel reduceTicks s.kernel =
      .ok (reports, k')) :
    let s' : CallState := ⟨k', s.elapsed + if reduceTicks then 1 else 0⟩
    InCall call t s' ∨
      (¬(k'.tasks t).Suspended ∧ call.Honoured t s s') := by
  intro s'
  have hle : s.elapsed ≤ s'.elapsed := Nat.le_add_right _ _
  rw [GlitchedOS.checkBlockedTasks, bind_ok_iff] at hrun
  obtain ⟨ring, hring, hrun⟩ := hrun
  have hquiet := checkBlockedLoop_life hrun
  have hmem : t ∈ k'.allocated := hquiet.allocated ▸ h.mem
  have haway : k'.switching = false → k'.current ≠ t := fun hs => by
    rw [hquiet.current]
    exact h.away (hquiet.switching.symm.trans hs)
  rcases checkBlockedLoop_visit (ringFrom_chain hring).nodup h.suspended.ne.2.1
    hrun with hsame | ⟨k₁, report, k₂, hbefore, hwait, hvisit, hafter⟩
  · exact Or.inl (h.of_call hle hsame.call hmem haway)
  have hstate₁ : (k₁.tasks t).state = (s.kernel.tasks t).state :=
    congrArg TaskCall.state hbefore.call
  -- the visit leaves the task as the pass does
  have hlast : ∀ {c : TaskCall}, (k₂.tasks t).call = c → c.state ≠ .zombie →
      (k'.tasks t).call = c := by
    intro c hc hz
    refine (hafter ?_).call.trans hc
    rwa [show (k₂.tasks t).state = c.state from congrArg TaskCall.state hc]
  rcases h.suspended with hblocked | hstopped
  swap
  · rw [checkBlockedTask, if_pos (by rw [hstate₁, hstopped]; decide)] at hvisit
    obtain ⟨-, rfl⟩ := Prod.mk.inj (Except.ok.inj hvisit)
    have hcall := hlast hbefore.call h.suspended.ne.2.1
    exact Or.inl (h.of_call hle hcall hmem haway)
  have hcalm₁ : hasPendingSignals (k₁.tasks t) = false :=
    (hwait.proj hasPendingSignals (fun _ _ _ _ _ _ _ => rfl) t).trans
      (hcalm hblocked)
  have hreason₁ : (k₁.tasks t).blockReason = (s.kernel.tasks t).blockReason :=
    congrArg TaskCall.blockReason hbefore.call
  cases call with
  | waitpid options =>
      have hflags : (k₁.tasks t).waitpidFlags = options :=
        (congrArg TaskCall.waitpidFlags hbefore.call).trans h.kept.2
      rcases checkWait_call hcalm₁ (hreason₁.trans h.kept.1) hvisit with hcall |
        ⟨child, event, hfinds, hready, hrax⟩
      · have hcall := hlast (hcall.trans hbefore.call) h.suspended.ne.2.1
        exact Or.inl (h.of_call hle hcall hmem haway)
      · rw [hflags] at hfinds
        have hcall := hlast (c := (k₂.tasks t).call) rfl
          (show (k₂.tasks t).state ≠ .zombie by rw [hready]; decide)
        have hready' : (k'.tasks t).state = .ready :=
          (congrArg TaskCall.state hcall).trans hready
        refine Or.inr ⟨fun hs => hs.ne.1 hready', k₁, child, event, hwait, hfinds, ?_⟩
        refine (congrArg (·.iframe.rax) hcall).trans (hrax.trans ?_)
        exact hwait.proj Task.pid (fun _ _ _ _ _ _ _ => rfl) child
  | sleep ms =>
      obtain ⟨hreason, hticks, hbound, hrax⟩ := h.kept
      have hdelay : k₂ = checkDelay reduceTicks k₁ t := by
        rw [checkBlockedTask, if_neg (by rw [hstate₁, hblocked]; decide),
          show (k₁.tasks t).blockReason = .delay from hreason₁.trans hreason]
          at hvisit
        exact (Prod.mk.inj (Except.ok.inj hvisit)).2.symm
      have hcall := checkDelay_call reduceTicks hcalm₁
      rw [← hdelay, show (k₁.tasks t).blockedTicks =
        (s.kernel.tasks t).call.blockedTicks from
          congrArg TaskCall.blockedTicks hbefore.call, hbefore.call] at hcall
      generalize hleft : (if reduceTicks = true then
        (s.kernel.tasks t).call.blockedTicks - 1#64
        else (s.kernel.tasks t).call.blockedTicks) = left at hcall
      have hpassed : ms.toNat ≤ left.toNat + s'.elapsed := by
        have hpos : (s.kernel.tasks t).call.blockedTicks.toNat ≠ 0 := fun hz =>
          hticks (BitVec.eq_of_toNat_eq hz)
        have hlt := (s.kernel.tasks t).call.blockedTicks.isLt
        show ms.toNat ≤ left.toNat + (s.elapsed + if reduceTicks then 1 else 0)
        rw [← hleft]
        cases reduceTicks with
        | true =>
            rw [if_pos rfl, if_pos rfl, BitVec.toNat_sub]
            simp only [BitVec.toNat_ofNat]
            omega
        | false =>
            rw [if_neg Bool.false_ne_true, if_neg Bool.false_ne_true]
            omega
      dsimp only at hcall
      by_cases hzero : left = 0#64
      · rw [if_pos hzero] at hcall
        have hend := hlast hcall (show ProcessState.ready ≠ .zombie by decide)
        have hready : (k'.tasks t).state = .ready := congrArg TaskCall.state hend
        refine Or.inr ⟨fun hs => hs.ne.1 hready, ?_, ?_⟩
        · rw [hzero] at hpassed
          simpa using hpassed
        · exact (congrArg (·.iframe.rax) hend).trans hrax
      · rw [if_neg hzero] at hcall
        have hend := hlast hcall h.suspended.ne.2.1
        have hstate : (k'.tasks t).state = (s.kernel.tasks t).state :=
          congrArg TaskCall.state hend
        refine Or.inl ⟨hmem, h.ne_idle, haway, ?_, ?_⟩
        · rw [Task.Suspended, hstate]
          exact h.suspended
        · show BlockedCall.Kept (.sleep ms) (k'.tasks t).call _
          rw [hend]
          exact ⟨hreason, hzero, hpassed, hrax⟩

theorem InCall.kill {call : BlockedCall} {s : CallState} (h : InCall call t s) {sig : Nat}
    (hcurrent : s.kernel.current ≠ t) (ring : List Nat)
    (huncut : Op.continues s.kernel t (.kill pid sig) → call.Over s.elapsed) :
    let s' : CallState := ⟨(killLoop pid sig ring s.kernel).2, s.elapsed⟩
    InCall call t s' ∨
      (¬(s'.kernel.tasks t).Suspended ∧ call.Honoured t s s') := by
  intro s'
  obtain ⟨hallocated, hcur, -⟩ := killLoop_kept pid sig ring s.kernel
  have hmem : t ∈ s'.kernel.allocated := by
    show t ∈ (killLoop pid sig ring s.kernel).2.allocated
    rw [hallocated]
    exact h.mem
  have haway : s'.kernel.switching = false → s'.kernel.current ≠ t := fun _ => by
    show (killLoop pid sig ring s.kernel).2.current ≠ t
    rwa [hcur]
  rcases killLoop_call t ring s.kernel with hsame | ⟨-, hstop⟩ |
    ⟨hcont, htarget, hstopped, hready⟩
  · exact Or.inl (h.of_call (le_refl _) hsame hmem haway)
  · have hstate : (s'.kernel.tasks t).state = .stopped :=
      congrArg TaskCall.state hstop
    refine Or.inl ⟨hmem, h.ne_idle, haway, Or.inr hstate, ?_⟩
    show call.Kept ((killLoop pid sig ring s.kernel).2.tasks t).call s.elapsed
    rw [hstop]
    exact h.kept.setState .stopped
  · have hstate : (s'.kernel.tasks t).state = .ready :=
      congrArg TaskCall.state hready
    refine Or.inr ⟨fun hs => hs.ne.1 hstate, ?_⟩
    have hover := huncut ⟨hcont, htarget, hstopped⟩
    cases call with
    | waitpid options => exact hover.elim
    | sleep ms =>
        exact ⟨hover, (congrArg (·.iframe.rax) hready).trans h.kept.2.2.2⟩

/-- `switch_task` runs another task. -/
theorem InCall.switchTask {call : BlockedCall} {s : CallState} (h : InCall call t s)
    (hrun : GlitchedOS.switchTask env fuel s.kernel = .ok k') :
    InCall call t ⟨k', s.elapsed⟩ := by
  obtain ⟨next, rr, hnext, hdeliver⟩ := switchTask_ok hrun
  have hne : next.getD idleTask ≠ t := by
    cases next with
    | none => exact h.ne_idle.symm
    | some u =>
        rintro rfl
        exact h.suspended.ne.1 (nextLoop_ready hnext)
  have hchosen : (chooseTask s.kernel (next.getD idleTask) rr).tasks t =
      s.kernel.tasks t := by
    rw [chooseTask]
    dsimp only
    exact Kernel.modifyTask_ne s.kernel _ hne.symm
  have hspares : Spares t (chooseTask s.kernel (next.getD idleTask) rr) k' :=
    .deliverSignals hne hdeliver
  refine h.of_call (le_refl _) ?_ (hspares.allocated h.mem) fun _ => ?_
  · rw [← hchosen]
    exact hspares.call
  · show k'.current ≠ t
    rw [hspares.current]
    exact hne

theorem InCall.block {call : BlockedCall} {s : CallState} (h : InCall call t s)
    (hcurrent : s.kernel.current ≠ t) (hspares : Spares t s.kernel k)
    (hrun : runNext fuel k = .ok k') : InCall call t ⟨k', s.elapsed⟩ := by
  have hstate : (k.tasks t).state = (s.kernel.tasks t).state :=
    congrArg TaskCall.state hspares.call
  have hsuspended : (k.tasks t).Suspended := by
    rw [Task.Suspended, hstate]
    exact h.suspended
  obtain ⟨hcall, hmem, hswitching⟩ := runNext_call (by rwa [hspares.current])
    hsuspended (hspares.allocated h.mem) hrun
  refine h.of_call (le_refl _) (hcall.trans hspares.call) hmem fun hs => ?_
  cases hswitching.symm.trans hs

/-- A step that does not cut the call short: the call goes on, or it is over as it
should be. -/
theorem InCall.step {call : BlockedCall} {s s' : CallState} {op : Op}
    (h : InCall call t s) (hstep : call.UncutStep t s op s') :
    InCall call t s' ∨
      (¬(s'.kernel.tasks t).Suspended ∧ call.Honoured t s s') := by
  obtain ⟨⟨huncut, hnostop⟩, -, hcalm, ⟨henabled, fuel, reports, hrun⟩, helapsed⟩ :=
    hstep
  obtain ⟨k', elapsed'⟩ := s'
  dsimp only at hrun helapsed
  subst helapsed
  have hentered : ∀ number, s.kernel.current ≠ t →
      Spares t s.kernel (enterSyscall s.kernel number) ∧
        (enterSyscall s.kernel number).current ≠ t := fun number hc =>
    ⟨.enterSyscall hc number, hc⟩
  cases op with
  | switchTask env =>
      replace hrun := reportsNone_ok hrun
      exact Or.inl (h.switchTask hrun)
  | deliverSignals env =>
      have hcurrent := h.away henabled.1
      replace hrun := reportsNone_ok hrun
      exact Or.inl (h.of_spares (le_refl _) hcurrent (.deliverSignals hcurrent hrun))
  | runNext =>
      replace hrun := reportsNone_ok hrun
      exact Or.inl (h.block (h.away henabled) (.refl t _) hrun)
  | checkBlockedTasks reduceTicks =>
      have hsilent : (s.kernel.tasks t).state = .blocked →
          hasPendingSignals (s.kernel.tasks t) = false := fun hb =>
        hasPendingSignals_false hcalm (hnostop hb)
      have hticks : Op.ticks (.checkBlockedTasks reduceTicks) =
          if reduceTicks then 1 else 0 := by
        cases reduceTicks <;> rfl
      rw [hticks]
      exact h.checkBlockedTasks hsilent hrun
  | createKworker new regs =>
      have hcurrent := h.away henabled.1
      have hnew : new ≠ t := fun heq => henabled.2 (heq ▸ h.mem)
      replace hrun := reportsNone_ok hrun
      exact Or.inl (h.of_spares (le_refl _) hcurrent (.createKworker hnew hrun))
  | kworkerExit =>
      have hcurrent := h.away henabled.1
      obtain ⟨-, rfl⟩ := Prod.mk.inj (Except.ok.inj hrun)
      refine Or.inl (h.of_spares (le_refl _) hcurrent ?_)
      rw [GlitchedOS.kworkerExit]
      split
      · exact .refl t _
      · exact (Spares.modifyTask s.kernel (fun x =>
          { x with state := .deleted }) hcurrent).trans (.of_tasks rfl rfl rfl)
  | sleep ms =>
      obtain ⟨henter, hcur⟩ := hentered 16 (h.away henabled.1)
      replace hrun := reportsNone_ok hrun
      rw [GlitchedOS.sleep] at hrun
      split at hrun
      · obtain rfl := Except.ok.inj hrun
        refine Or.inl (h.of_spares (le_refl _) (h.away henabled.1)
          (henter.trans ?_))
        dsimp only
        exact .modifyTask _ _ hcur
      · exact Or.inl (h.block (h.away henabled.1)
          (henter.trans (.modifyTask _ _ hcur)) hrun)
  | fork new =>
      obtain ⟨henter, hcur⟩ := hentered 11 (h.away henabled.1)
      have hnew : new ≠ t := fun heq => henabled.2.2 (heq ▸ h.mem)
      replace hrun := reportsNone_ok hrun
      exact Or.inl (h.of_spares (le_refl _) (h.away henabled.1)
        (henter.trans (.fork hcur hnew hrun)))
  | spawn env pathRes args new =>
      have hcurrent := h.away henabled.1
      have hnew : new ≠ t := fun heq => henabled.2.2 (heq ▸ h.mem)
      replace hrun := reportsNone_ok hrun
      exact Or.inl (h.of_spares (le_refl _) hcurrent (.sysSpawn hcurrent hnew hrun))
  | execve env pathRes args new =>
      have hcurrent := h.away henabled.1
      have hnew : new ≠ t := fun heq => henabled.2.2 (heq ▸ h.mem)
      replace hrun := reportsNone_ok hrun
      exact Or.inl (h.of_spares (le_refl _) hcurrent (.sysExecve hcurrent hnew hrun))
  | exit env ret =>
      obtain ⟨henter, hcur⟩ := hentered 0 (h.away henabled.1)
      replace hrun := reportsNone_ok hrun
      exact Or.inl (h.of_spares (le_refl _) (h.away henabled.1)
        (henter.trans (.exit hcur hrun)))
  | waitpid pid wstatus options =>
      obtain ⟨henter, hcur⟩ := hentered 53 (h.away henabled.1)
      rw [Op.run, sysWaitpid, bind_ok_iff] at hrun
      obtain ⟨⟨r, k₁⟩, hwait, hrun⟩ := hrun
      have halive : ((enterSyscall s.kernel 53).tasks t).state ≠ .zombie := by
        rw [show ((enterSyscall s.kernel 53).tasks t).state =
          (s.kernel.tasks t).state from congrArg TaskCall.state henter.call]
        exact h.suspended.ne.2.1
      rcases waitpid_ok hwait with ⟨ret, -, rfl, rfl⟩ |
          ⟨child, event, -, hevent, rfl, rfl⟩ | ⟨rfl, target, -, hnext⟩
      · obtain ⟨-, rfl⟩ := Prod.mk.inj (Except.ok.inj hrun)
        exact Or.inl (h.of_spares (le_refl _) (h.away henabled.1)
          (henter.trans (.enterSyscall hcur _)))
      · obtain ⟨-, rfl⟩ := Prod.mk.inj (Except.ok.inj hrun)
        refine Or.inl (h.of_spares (le_refl _) (h.away henabled.1)
          (henter.trans ?_))
        exact .leaveSyscall ((Spares.storeStatus _ _ _ _).trans
          (.consumeEvent hevent halive _)) hcur
      · obtain ⟨-, rfl⟩ := Prod.mk.inj (Except.ok.inj hrun)
        exact Or.inl (h.block (h.away henabled.1)
          (henter.trans (.modifyTask _ _ hcur)) hnext)
  | kill pid sig =>
      have hcurrent := h.away henabled.1
      obtain ⟨-, res, k₁, rfl, ⟨-, rfl⟩ | ⟨-, ring, -, rfl⟩⟩ := kill_ok hrun
      · exact Or.inl (h.of_spares (le_refl _) hcurrent
          (.leaveSyscall (.refl t _) hcurrent))
      have hcur : (killLoop pid sig ring s.kernel).2.current ≠ t := by
        rw [(killLoop_kept pid sig ring s.kernel).2.1]
        exact hcurrent
      have hleave := Spares.enterSyscall hcur res
      rcases h.kill hcurrent ring huncut with hin | ⟨hleft, hdone⟩
      · exact Or.inl (hin.of_spares (le_refl _) hcur hleave)
      · have hstate : ((leaveSyscall (res,
            (killLoop pid sig ring s.kernel).2)).tasks t).state = _ :=
          congrArg TaskCall.state hleave.call
        refine Or.inr ⟨?_, ?_⟩
        · rw [Task.Suspended, hstate]
          exact hleft
        · cases call with
          | waitpid options =>
              obtain ⟨k₁, child, event, hwait, hfinds, hrax⟩ := hdone
              exact ⟨k₁, child, event, hwait, hfinds,
                (congrArg (·.iframe.rax) hleave.call).trans hrax⟩
          | sleep ms =>
              exact ⟨hdone.1, (congrArg (·.iframe.rax) hleave.call).trans hdone.2⟩
  | raise sig =>
      have hcurrent := h.away henabled.1
      obtain ⟨-, rfl⟩ := Prod.mk.inj (Except.ok.inj hrun)
      refine Or.inl (h.of_spares (le_refl _) hcurrent (.leaveSyscall ?_ hcurrent))
      rw [GlitchedOS.raise]
      split
      · exact .refl t _
      · exact (Spares.modifyTask s.kernel (·.signalled sig) hcurrent).trans
          (.of_pendingOnly (signalTask_pending _ _ sig))
  | userCode _ | sigaction _ _ | fdOpen _ _ | fdClose _ _ | fcntl _ _ _
  | dup2 _ _ _ | fdSocket _ _ | sigprocmask _ _ | setpgid _ _ | setsid
  | unmount _ _ _ | pipe _ | mount _ _ _ _ =>
      have hcurrent := h.away henabled.1
      exact Or.inl (h.of_spares (le_refl _) hcurrent (.plain rfl hcurrent hrun))

/-! ### Runs -/

/-- The running task blocks: `run_next` leaves what it wrote. -/
theorem blocked_call {f : Task → Task} (hcurrent : k.current = t)
    (hmem : t ∈ k.allocated) (hf : ∀ x, (f x).state = .blocked)
    (h : runNext fuel (k.modifyCurrent f) = .ok k') :
    (k'.tasks t).call = (f (k.tasks t)).call ∧ t ∈ k'.allocated ∧
      k'.switching = true := by
  subst hcurrent
  have hswitching := runNext_switching h
  rw [runNext, bind_ok_iff] at h
  obtain ⟨k₁, hgc, h⟩ := h
  obtain rfl := Except.ok.inj h
  rw [gcTasks] at hgc
  have hcollected := gcLoop_collected hgc
  have hblocked : ((k.modifyCurrent f).modifyCurrent fun x =>
      if x.state = .running then { x with state := .ready } else x).tasks
        k.current = f (k.tasks k.current) := by
    rw [Kernel.modifyCurrent, Kernel.modifyCurrent, Kernel.modifyTask_current,
      Kernel.modifyTask_self, Kernel.modifyTask_self, if_neg]
    rw [hf]
    decide
  refine ⟨?_, ?_, hswitching⟩
  · refine (hcollected.links Task.call (fun _ _ => rfl) k.current).trans ?_
    rw [hblocked]
  · by_contra hout
    have hdeleted := hcollected.freed k.current hmem hout
    rw [hblocked, hf] at hdeleted
    cases hdeleted

theorem BlockedCall.Entered.inCall {call : BlockedCall} (h : call.Entered t k k') :
    InCall call t ⟨k', 0⟩ := by
  obtain ⟨rfl, hmem, hidle, hawake, hblocked, hstep⟩ := h
  have hstate : ∀ number, ((enterSyscall k number).tasks k.current).state =
      (k.tasks k.current).state := fun number =>
    enterSyscall_proj Task.state (fun _ _ => rfl) k number k.current
  cases call with
  | sleep ms =>
      obtain ⟨henabled, fuel, reports, hrun⟩ := hstep
      replace hrun := reportsNone_ok hrun
      rw [GlitchedOS.sleep] at hrun
      split at hrun
      · obtain rfl := Except.ok.inj hrun
        rw [Kernel.modifyCurrent, Kernel.modifyTask_proj Task.state _ _ _ rfl,
          hstate] at hblocked
        exact absurd hblocked hawake
      rename_i hpos
      obtain ⟨hcall, hin, hswitching⟩ :=
        blocked_call (k := enterSyscall k 16) rfl hmem (fun _ => rfl) hrun
      refine ⟨hin, hidle, fun hs => ?_, Or.inl hblocked, ?_⟩
      · cases hswitching.symm.trans hs
      · refine (congrArg (BlockedCall.Kept (.sleep ms) · 0) hcall).mpr ?_
        exact ⟨rfl, hpos, le_refl _, rfl⟩
  | waitpid options =>
      obtain ⟨pid, wstatus, henabled, fuel, reports, hrun⟩ := hstep
      rw [Op.run, sysWaitpid, bind_ok_iff] at hrun
      obtain ⟨⟨r, k₁⟩, hwait, hrun⟩ := hrun
      rcases waitpid_ok hwait with ⟨ret, -, rfl, rfl⟩ |
          ⟨child, event, -, hevent, rfl, rfl⟩ | ⟨rfl, target, -, hnext⟩
      · obtain ⟨-, rfl⟩ := Prod.mk.inj (Except.ok.inj hrun)
        rw [leaveSyscall, enterSyscall_proj Task.state fun _ _ => rfl, hstate]
          at hblocked
        exact absurd hblocked hawake
      · obtain ⟨-, rfl⟩ := Prod.mk.inj (Except.ok.inj hrun)
        rw [leaveSyscall, enterSyscall_proj Task.state fun _ _ => rfl] at hblocked
        have hbefore := (Settles.consumeEvent _ child event).rouses _ hblocked
        rw [storeStatus_tasks, hstate] at hbefore
        exact absurd hbefore hawake
      · obtain ⟨-, rfl⟩ := Prod.mk.inj (Except.ok.inj hrun)
        rw [blockWaiting] at hnext
        obtain ⟨hcall, hin, hswitching⟩ :=
          blocked_call (k := enterSyscall k 53) rfl hmem (fun _ => rfl) hnext
        refine ⟨hin, hidle, fun hs => ?_, Or.inl hblocked, ?_⟩
        · cases hswitching.symm.trans hs
        · refine (congrArg (BlockedCall.Kept (.waitpid options) · 0) hcall).mpr ?_
          exact ⟨rfl, rfl⟩

/-- In every run that does not cut the call short, the task is in the call until
what it waits for has come, and then has the result of the call. -/
theorem blocked_call_completes {call : BlockedCall} {ops : List Op} {op : Op}
    {s s' : CallState} (hcall : call.Entered t k k')
    (hrun : Run (call.UncutStep t) ⟨k', 0⟩ ops s)
    (hstep : call.UncutStep t s op s')
    (hleft : ¬(s'.kernel.tasks t).Suspended) : call.Honoured t s s' := by
  have hin : (s.kernel.tasks t).Suspended → InCall call t s := by
    refine hrun.invariant (fun s => (s.kernel.tasks t).Suspended → InCall call t s)
      ?_ fun _ => hcall.inCall
    intro s op s' hstep ih hsuspended
    rcases (ih hstep.2.1).step hstep with hin | ⟨hout, -⟩
    · exact hin
    · exact absurd hsuspended hout
  rcases (hin hstep.2.1).step hstep with hin' | ⟨-, hdone⟩
  · exact absurd hin'.suspended hleft
  · exact hdone

/-! ### Concrete runs -/

/-- The operations in order, each where it is enabled and `keep` holds. -/
def runCalls (fuel : Nat) (keep : Kernel → Bool) :
    List Op → CallState → Option CallState
  | [], s => some s
  | op :: rest, s =>
    if op.enabled s.kernel ∧ keep s.kernel = true then
      match op.run fuel s.kernel with
      | .ok (_, k) => runCalls fuel keep rest ⟨k, s.elapsed + op.ticks⟩
      | .error _ => none
    else none

theorem runCalls_run {keep : Kernel → Bool} :
    ∀ {ops : List Op} {s s' : CallState}, runCalls fuel keep ops s = some s' →
      Run (fun s op s' => keep s.kernel = true ∧ CallStep s op s') s ops s'
  | [], s, _, h => by
      obtain rfl := Option.some.inj h
      exact .nil s
  | op :: rest, s, s', h => by
      rw [runCalls] at h
      split at h
      · rename_i henabled
        split at h
        · rename_i reports k hop
          exact .cons ⟨henabled.2, ⟨henabled.1, fuel, reports, hop⟩, rfl⟩
            (runCalls_run h)
        · cases h
      · cases h

/-- The task is in a call, and nothing but a stop came to it. -/
def calmlySuspended (t : Nat) (k : Kernel) : Bool :=
  (decide ((k.tasks t).state = .blocked) || decide ((k.tasks t).state = .stopped)) &&
    (List.range 31).all fun i =>
      !disturbs (k.tasks t) i && !stopPending (k.tasks t) i

theorem calmlySuspended_iff {k : Kernel} :
    calmlySuspended t k = true ↔ (k.tasks t).Suspended ∧
      (∀ i < 31, disturbs (k.tasks t) i = false) ∧
      ∀ i < 31, stopPending (k.tasks t) i = false := by
  simp only [calmlySuspended, Task.Suspended, Bool.and_eq_true, Bool.or_eq_true,
    decide_eq_true_iff, List.all_eq_true, List.mem_range, Bool.not_eq_true']
  constructor
  · rintro ⟨hs, hall⟩
    exact ⟨hs, fun i hi => (hall i hi).1, fun i hi => (hall i hi).2⟩
  · rintro ⟨hs, hcalm, hstop⟩
    exact ⟨hs, fun i hi => ⟨hcalm i hi, hstop i hi⟩⟩

/-- A child of the first program is about to call `sleep`. -/
def childRuns : List Op := [.fork 2, .switchTask closes]

/-- The first program stops the child, and two timer ticks pass. -/
def stoppedAsleep : List Op :=
  [.switchTask closes, .kill 2 sigStop, .checkBlockedTasks true,
    .checkBlockedTasks true]

def stoppedAtOnce : List Op := [.switchTask closes, .kill 2 sigStop]

/-- A run of the operations of the child's sleep, in which `k` is the state before
the call and `k'` the one after it. -/
def sleepRun (ms : BitVec 64) (stopped later : List Op) :
    Option (Kernel × Kernel × CallState × CallState × CallState) := do
  let k ← runOps 8 (fun _ => true) childRuns (bootKernel smallBoot)
  let k' ← runOps 8 (fun _ => true) [.sleep ms] k
  let s ← runCalls 8 (calmlySuspended 2) stopped ⟨k', 0⟩
  let s' ← runCalls 8 (calmlySuspended 2) [.kill 2 sigCont] s
  let s'' ← runCalls 8 (fun _ => true) later s'
  some (k, k', s, s', s'')

theorem sleepRun_spec {ms : BitVec 64} {stopped later : List Op} {k k' : Kernel}
    {s s' s'' : CallState}
    (h : sleepRun ms stopped later = some (k, k', s, s', s''))
    (hcurrent : k.current = 2 ∧ 2 ∈ k.allocated ∧ (k.tasks 2).state = .running ∧
      (k'.tasks 2).state = .blocked) :
    Run Step (bootKernel smallBoot) childRuns k ∧
      (BlockedCall.sleep ms).Entered 2 k k' ∧
      Run (fun s op s' => calmlySuspended 2 s.kernel = true ∧ CallStep s op s')
        ⟨k', 0⟩ stopped s ∧
      (calmlySuspended 2 s.kernel = true ∧ CallStep s (.kill 2 sigCont) s') ∧
      Run CallStep s' later s'' := by
  simp only [sleepRun, Option.bind_eq_bind, Option.bind_eq_some_iff,
    Option.some.injEq, Prod.mk.injEq] at h
  obtain ⟨k₁, hboot, k₂, hsleep, s₁, hstopped, s₂, hcont, s₃, hlater, rfl, rfl, rfl,
    rfl, rfl⟩ := h
  obtain ⟨hcur, hmem, hrunning, hblocked⟩ := hcurrent
  have hawake : (k₁.tasks 2).state ≠ .blocked := by
    rw [hrunning]
    decide
  refine ⟨(runOps_run hboot).mono fun _ _ _ hstep => hstep.2,
    ⟨hcur, hmem, by decide, hawake, hblocked, (runOps_run hsleep).of_single.2⟩,
    runCalls_run hstopped, (runCalls_run hcont).of_single, ?_⟩
  exact (runCalls_run hlater).mono fun _ _ _ hstep => hstep.2

set_option maxRecDepth 4000 in
/-- A child sleeps for two ticks, is stopped, and is continued after them. -/
theorem blocked_call_completes_asleep : ∃ k k' s s',
    (BlockedCall.sleep 2#64).Entered 2 k k' ∧
      Run ((BlockedCall.sleep 2#64).UncutStep 2) ⟨k', 0⟩ stoppedAsleep s ∧
      (BlockedCall.sleep 2#64).UncutStep 2 s (.kill 2 sigCont) s' ∧
      ¬(s'.kernel.tasks 2).Suspended ∧
      (BlockedCall.sleep 2#64).Honoured 2 s s' := by
  have hruns : ∃ r ∈ sleepRun 2#64 stoppedAsleep [],
      (r.1.current = 2 ∧ 2 ∈ r.1.allocated ∧ (r.1.tasks 2).state = .running ∧
        (r.2.1.tasks 2).state = .blocked) ∧
      r.2.2.1.elapsed = 2 ∧ (r.2.2.2.1.kernel.tasks 2).state = .ready := by
    decide +kernel
  obtain ⟨⟨k, k', s, s', s''⟩, h, hcurrent, helapsed, hready⟩ := hruns
  obtain ⟨-, hentered, hrun, ⟨hcalm, hstep⟩, -⟩ := sleepRun_spec h hcurrent
  have hsteps : Run ((BlockedCall.sleep 2#64).UncutStep 2) ⟨k', 0⟩ stoppedAsleep
      s := by
    refine hrun.mono_of_mem fun s op s' hop hstep => ?_
    obtain ⟨hsuspended, hcalm, hnostop⟩ := calmlySuspended_iff.mp hstep.1
    refine ⟨⟨fun hcont => ?_, fun _ => hnostop⟩, hsuspended, hcalm, hstep.2⟩
    simp only [stoppedAsleep, List.mem_cons, List.not_mem_nil, or_false] at hop
    rcases hop with rfl | rfl | rfl | rfl
    · exact hcont.elim
    · exact absurd hcont.1 (by decide)
    · exact hcont.elim
    · exact hcont.elim
  have hlast : (BlockedCall.sleep 2#64).UncutStep 2 s (.kill 2 sigCont) s' := by
    obtain ⟨hsuspended, hcalm, hnostop⟩ := calmlySuspended_iff.mp hcalm
    exact ⟨⟨fun _ => helapsed.ge, fun _ => hnostop⟩, hsuspended, hcalm, hstep⟩
  have hleft : ¬(s'.kernel.tasks 2).Suspended := fun hs => hs.ne.1 hready
  exact ⟨k, k', s, s', hentered, hsteps, hlast, hleft,
    blocked_call_completes hentered hsteps hlast hleft⟩

set_option maxRecDepth 4000 in
/-- A child sleeps for a thousand ticks, is stopped and continued at once, and runs
again before the first of them. -/
theorem sleep_cut_short : ∃ k k' s s' s'',
    Run Step (bootKernel smallBoot) childRuns k ∧
      (BlockedCall.sleep 1000#64).Entered 2 k k' ∧
      Run (SuspendedStep 2) ⟨k', 0⟩ stoppedAtOnce s ∧
      SuspendedStep 2 s (.kill 2 sigCont) s' ∧
      ¬(s'.kernel.tasks 2).Suspended ∧
      ¬(BlockedCall.sleep 1000#64).Honoured 2 s s' ∧
      Run CallStep s' [.runNext, .switchTask closes] s'' ∧
      s''.kernel.current = 2 ∧ s''.kernel.switching = false ∧ s''.elapsed = 0 := by
  have hruns : ∃ r ∈ sleepRun 1000#64 stoppedAtOnce [.runNext, .switchTask closes],
      (r.1.current = 2 ∧ 2 ∈ r.1.allocated ∧ (r.1.tasks 2).state = .running ∧
        (r.2.1.tasks 2).state = .blocked) ∧
      r.2.2.2.1.elapsed = 0 ∧ (r.2.2.2.1.kernel.tasks 2).state = .ready ∧
      r.2.2.2.2.kernel.current = 2 ∧ r.2.2.2.2.kernel.switching = false ∧
      r.2.2.2.2.elapsed = 0 := by
    decide +kernel
  obtain ⟨⟨k, k', s, s', s''⟩, h, hcurrent, helapsed, hready, hend⟩ := hruns
  obtain ⟨hboot, hentered, hrun, ⟨hcalm, hstep⟩, hlater⟩ := sleepRun_spec h hcurrent
  refine ⟨k, k', s, s', s'', hboot, hentered, ?_, ?_, fun hs => hs.ne.1 hready, ?_,
    hlater, hend⟩
  · refine hrun.mono fun s op s' hstep => ?_
    obtain ⟨hsuspended, hcalm, -⟩ := calmlySuspended_iff.mp hstep.1
    exact ⟨hsuspended, hcalm, hstep.2⟩
  · obtain ⟨hsuspended, hcalm, -⟩ := calmlySuspended_iff.mp hcalm
    exact ⟨hsuspended, hcalm, hstep⟩
  · rintro ⟨hover, -⟩
    dsimp only at helapsed
    rw [helapsed] at hover
    exact absurd hover (by decide)

end GlitchedOS
