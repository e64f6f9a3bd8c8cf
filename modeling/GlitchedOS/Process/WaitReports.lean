/-
What `waitpid` reports of a child.  Beside the kernel a run keeps count of what has happened to
each task since it was made, and of what was reported of it.  The reports stay within what has
happened as long as no process forks while an event of its own is still to be reported, and
`check_blocked_tasks` leaves no terminated child behind.
-/
import GlitchedOS.Process.WaitEvents

namespace GlitchedOS

variable {k k' k'' : Kernel}
variable {op : Op} {reports : List (Nat × WaitEvent)} {fuel t : Nat}

/-- The operation sends `SIGCONT`. -/
def Op.sendsCont : Op → Bool
  | .kill _ sig | .raise sig => decide (sig = sigCont)
  | _ => false

/-- What an operation that makes `y` of the task `x` does to it. -/
def happens (op : Op) (x y : Task) : WaitEvent → Bool
  | .terminated => decide (x.state ≠ .zombie ∧ y.state = .zombie)
  | .stopped => decide (x.state ≠ .stopped ∧ y.state = .stopped)
  | .continued => op.sendsCont && decide (x.state = .stopped ∧ y.state = .ready)

/-- The operation makes the task `t`. -/
def Op.forks (op : Op) (t : Nat) : Bool :=
  match op with
  | .fork new => decide (new = t)
  | _ => false

/-- The operations that load no program and make no kernel worker. -/
def Op.listed : Op → Bool
  | .spawn _ _ _ _ | .execve _ _ _ _ | .createKworker _ _ => false
  | _ => true

/-- The kernel, with what has happened to each task and what was reported of it. -/
structure WaitLog where
  kernel : Kernel
  happened : Nat → WaitEvent → Nat
  reported : Nat → WaitEvent → Nat

def WaitLog.record (s : WaitLog) (op : Op) (reports : List (Nat × WaitEvent)) (k : Kernel) :
    WaitLog where
  kernel := k
  happened := fun t event =>
    if op.forks t then 0
    else s.happened t event + (happens op (s.kernel.tasks t) (k.tasks t) event).toNat
  reported := fun t event =>
    if op.forks t then 0 else s.reported t event + reports.count (t, event)

def LoggedStep (fuel : Nat) (s : WaitLog) (op : Op) (s' : WaitLog) : Prop :=
  op.listed = true ∧ op.enabled s.kernel ∧
    ∃ reports, op.run fuel s.kernel = .ok (reports, s'.kernel) ∧
      s' = s.record op reports s'.kernel

def WaitStep (s : WaitLog) (op : Op) (s' : WaitLog) : Prop := ∃ fuel, LoggedStep fuel s op s'

/-- A task that forks has no event to be reported, and no terminated child is left behind. -/
def Op.reaps (fuel : Nat) (k : Kernel) : Op → Bool
  | .fork _ => decide (k.currentTask.waitpidEvent = 0)
  | .checkBlockedTasks reduceTicks =>
    match ringFrom k fuel initTask with
    | .ok ring => loopReaps fuel reduceTicks ring k
    | .error _ => true
  | _ => true

def ReapingStep (s : WaitLog) (op : Op) (s' : WaitLog) : Prop :=
  ∃ fuel, op.reaps fuel s.kernel = true ∧ LoggedStep fuel s op s'

/-- The system after boot, where nothing has happened. -/
def bootLog (info : BootInfo) : WaitLog := ⟨bootKernel info, fun _ _ => 0, fun _ _ => 0⟩

/-- What an operation reports of the task `t` is paid for by what was owed and what happens. -/
structure Covered (op : Op) (reports : List (Nat × WaitEvent)) (k k' : Kernel) (t : Nat) :
    Prop where
  count : ∀ event, reports.count (t, event) + ((k'.tasks t).owes event).toNat ≤
    ((k.tasks t).owes event).toNat + (happens op (k.tasks t) (k'.tasks t) event).toNat
  deleted : (k.tasks t).state = .deleted ∨ (t, .terminated) ∈ reports →
    (k'.tasks t).state = .deleted

theorem Told.covered (h : Told k reports k') (t : Nat) : Covered op reports k k' t where
  count := fun event => (h.count t event).trans (Nat.le_add_right _ _)
  deleted := h.deleted t

theorem owes_terminated_le (op : Op) (x y : Task) : (y.owes .terminated).toNat ≤
    (x.owes .terminated).toNat + (happens op x y .terminated).toNat := by
  by_cases hx : x.state = .zombie <;> by_cases hy : y.state = .zombie <;>
    simp [Task.owes, happens, hx, hy]

/-- The end of a task is reported once, and the task is deleted then. -/
theorem Covered.terminated
    (h : Covered op reports k k' t) : reports.count (t, .terminated) = 0 ∨
      reports.count (t, .terminated) = 1 ∧ (k.tasks t).state ≠ .deleted ∧
        (k'.tasks t).state = .deleted := by
  by_cases hmem : (t, WaitEvent.terminated) ∈ reports
  · have hafter := h.deleted (.inr hmem)
    have hpos := List.count_pos_iff.mpr hmem
    have hcount := h.count .terminated
    by_cases hzombie : (k.tasks t).state = .zombie
    · simp [Task.owes, happens, hzombie, hafter] at hcount
      exact .inr ⟨by omega, by rw [hzombie]; decide, hafter⟩
    · simp [Task.owes, happens, hzombie, hafter] at hcount
      omega
  · exact .inl (List.count_eq_zero.mpr hmem)

theorem Covered.of_event (hevent : (k'.tasks t).waitpidEvent = (k.tasks t).waitpidEvent)
    (hdeleted : (k.tasks t).state = .deleted → (k'.tasks t).state = .deleted) :
    Covered op [] k k' t where
  count := fun event => by
    rw [List.count_nil, Nat.zero_add]
    cases event with
    | terminated => exact owes_terminated_le op _ _
    | stopped =>
        rw [Task.owes, Task.owes, hevent]
        exact Nat.le_add_right _ _
    | continued =>
        rw [Task.owes, Task.owes, hevent]
        exact Nat.le_add_right _ _
  deleted := fun ht => hdeleted (ht.resolve_right List.not_mem_nil)

theorem KeepsEvents.covered (h : KeepsEvents k k') (t : Nat) :
    Covered op [] k k' t :=
  .of_event (h.event t) (h.deleted t)

theorem Task.Turned.covered {sig : Nat} (hop : op.sendsCont = decide (sig = sigCont))
    (h : (k.tasks t).Turned sig (k'.tasks t)) : Covered op [] k k' t where
  count := fun event => by
    rw [List.count_nil, Nat.zero_add]
    cases event with
    | terminated => exact owes_terminated_le op _ _
    | stopped =>
        cases h with
        | kept state event =>
            rw [Task.owes, Task.owes, event]
            exact Nat.le_add_right _ _
        | stopped other undeleted before after event =>
            simp [Task.owes, happens, before, after, event]
        | continued cont before after event => simp [Task.owes, event]
    | continued =>
        cases h with
        | kept state event =>
            rw [Task.owes, Task.owes, event]
            exact Nat.le_add_right _ _
        | stopped other undeleted before after event => simp [Task.owes, event]
        | continued cont before after event =>
            simp [Task.owes, happens, hop, cont, before, after, event]
  deleted := fun ht => by
    have hdeleted := ht.resolve_right List.not_mem_nil
    cases h with
    | kept state event => exact state.trans hdeleted
    | stopped other undeleted before after event => exact absurd hdeleted undeleted
    | continued cont before after event =>
        rw [hdeleted] at before
        cases before

theorem fork_new {new : Nat} (h : fork k new = .ok k') :
    (k'.tasks new).state = .ready ∧ (k'.tasks new).waitpidEvent = k.currentTask.waitpidEvent := by
  obtain ⟨cr3, phys, k₁, -, hk₁, rfl⟩ := fork_ok h
  have hrefs := FilesOnly.addRefs k.currentTask.fdTable (allocTask k new phys
    { k.currentTask with state := .ready, cr3 := cr3 })
  rw [← hk₁] at hrefs
  constructor
  · rw [forkLink_state, hrefs.proj Task.state (fun _ _ => rfl) new, allocTask_new]
    split <;> rfl
  · rw [forkLink_proj Task.waitpidEvent fun _ _ _ _ => rfl,
      (LinksOnly.linkTask k₁ new k₁.current).proj Task.waitpidEvent (fun _ _ => rfl) new,
      hrefs.proj Task.waitpidEvent (fun _ _ => rfl) new, allocTask_new]

theorem fork_covered {new : Nat} (halive : ¬k.currentTask.Dead) (hne : t ≠ new)
    (h : fork k new = .ok k') : Covered op [] k k' t := by
  obtain ⟨cr3, phys, k₁, -, hk₁, rfl⟩ := fork_ok h
  have hrefs := FilesOnly.addRefs k.currentTask.fdTable (allocTask k new phys
    { k.currentTask with state := .ready, cr3 := cr3 })
  rw [← hk₁] at hrefs
  refine .of_event ?_ fun hdeleted => ?_
  · rw [forkLink_proj Task.waitpidEvent fun _ _ _ _ => rfl,
      (LinksOnly.linkTask k₁ new k₁.current).proj Task.waitpidEvent (fun _ _ => rfl) t,
      hrefs.proj Task.waitpidEvent (fun _ _ => rfl) t, allocTask_ne _ _ _ hne]
  · have hcurrent : t ≠ k₁.current := by
      rw [hrefs.current]
      rintro rfl
      exact halive (.inr hdeleted)
    rw [forkLink_state, if_neg hcurrent, hrefs.proj Task.state (fun _ _ => rfl) t,
      allocTask_ne _ _ _ hne]
    exact hdeleted

theorem Covered.andThen
    (h : Covered op reports k k' t) (h' : AttrsOnly k' k'') : Covered op reports k k'' t := by
  have hevent := h'.proj Task.waitpidEvent (fun _ _ => rfl) t
  have hstate := h'.proj Task.state (fun _ _ => rfl) t
  refine ⟨fun event => ?_, fun ht => hstate.trans (h.deleted ht)⟩
  have hcount := h.count event
  cases event <;> simpa only [Task.owes, happens, hevent, hstate] using hcount

theorem AttrsOnly.covered
    (h : AttrsOnly k k') (h' : Covered op reports k' k'' t) : Covered op reports k k'' t := by
  have hevent := h.proj Task.waitpidEvent (fun _ _ => rfl) t
  have hstate := h.proj Task.state (fun _ _ => rfl) t
  refine ⟨fun event => ?_, fun ht => h'.deleted (ht.imp_left hstate.trans)⟩
  have hcount := h'.count event
  cases event <;> simpa only [Task.owes, happens, hevent, hstate] using hcount

theorem reportsNone_nil {x : Except Stop Kernel}
    (h : (do .ok ([], ← x)) = Except.ok (reports, k')) : reports = [] ∧ x = .ok k' := by
  refine ⟨?_, reportsNone_ok h⟩
  rw [bind_ok_iff] at h
  obtain ⟨_, -, hk⟩ := h
  exact (Prod.mk.inj (Except.ok.inj hk)).1.symm

theorem Op.plain_reports
    (hplain : op.plain = true) (hrun : op.run fuel k = .ok (reports, k')) : reports = [] := by
  cases op with
  | userCode _ | sigaction _ _ | fdClose _ _ | fcntl _ _ _ | dup2 _ _ _ | pipe _
  | fdSocket _ _ | sigprocmask _ _ | setsid => exact (Prod.mk.inj (Except.ok.inj hrun)).1.symm
  | fdOpen _ _ | setpgid _ _ | mount _ _ _ _ | unmount _ _ _ =>
      rw [Op.run, bind_ok_iff] at hrun
      obtain ⟨_, -, hk⟩ := hrun
      exact (Prod.mk.inj (Except.ok.inj hk)).1.symm
  | switchTask _ | deliverSignals _ | runNext | checkBlockedTasks _ | createKworker _ _
  | kworkerExit | sleep _ | fork _ | spawn _ _ _ _ | execve _ _ _ _ | exit _ _
  | waitpid _ _ _ | kill _ _ | raise _ => cases hplain

theorem step_covered (h : Lively k)
    (hlisted : op.listed = true) (henabled : op.enabled k) (hreaps : op.reaps fuel k = true)
    (hrun : op.run fuel k = .ok (reports, k')) (hold : op.forks t = false) :
    Covered op reports k k' t := by
  have henter := fun n => AttrsOnly.enterSyscall k n
  have halive : k.switching = false → ∀ n, ¬(enterSyscall k n).currentTask.Dead := fun hs n hd => by
    rw [Task.Dead, Kernel.currentTask, enterSyscall_proj Task.state fun _ _ => rfl] at hd
    exact h.current hs hd
  cases op with
  | spawn _ _ _ _ | execve _ _ _ _ | createKworker _ _ => cases hlisted
  | switchTask env =>
      obtain ⟨rfl, hdone⟩ := reportsNone_nil hrun
      exact (KeepsEvents.switchTask h hdone).covered t
  | deliverSignals env =>
      obtain ⟨rfl, hdone⟩ := reportsNone_nil hrun
      exact (KeepsEvents.deliverSignals (h.current henabled.1) hdone).covered t
  | runNext =>
      obtain ⟨rfl, hdone⟩ := reportsNone_nil hrun
      exact (KeepsEvents.runNext hdone).covered t
  | checkBlockedTasks reduceTicks =>
      rw [Op.run, GlitchedOS.checkBlockedTasks, bind_ok_iff] at hrun
      obtain ⟨ring, hring, hrun⟩ := hrun
      rw [Op.reaps, hring] at hreaps
      exact (Told.checkBlockedLoop hreaps hrun).covered t
  | kworkerExit =>
      obtain ⟨rfl, rfl⟩ := Prod.mk.inj (Except.ok.inj hrun)
      exact (KeepsEvents.kworkerExit k).covered t
  | sleep ms =>
      obtain ⟨rfl, hdone⟩ := reportsNone_nil hrun
      exact (henter 16).covered ((KeepsEvents.sleep (halive henabled.1 16) hdone).covered t)
  | fork new =>
      obtain ⟨rfl, hdone⟩ := reportsNone_nil hrun
      have hne : t ≠ new := fun heq => absurd heq.symm (of_decide_eq_false hold)
      exact (henter 11).covered (fork_covered (halive henabled.1 11) hne hdone)
  | exit env ret =>
      obtain ⟨rfl, hdone⟩ := reportsNone_nil hrun
      exact (henter 0).covered ((KeepsEvents.exit (halive henabled.1 0) hdone).covered t)
  | waitpid pid wstatus options =>
      exact (Told.sysWaitpid (h.current henabled.1) hrun).covered t
  | kill pid sig =>
      obtain ⟨rfl, res, k₁, rfl, ⟨-, rfl⟩ | ⟨-, ring, -, rfl⟩⟩ := kill_ok hrun
      · exact (KeepsEvents.of_attrsOnly (.leaveSyscall (.refl k))).covered t
      · have hsent : Covered (.kill pid sig) [] k (killLoop pid sig ring k).2 t :=
          (killLoop_turned pid sig ring k t).covered rfl
        exact hsent.andThen (.enterSyscall _ res)
  | raise sig =>
      obtain ⟨rfl, rfl⟩ := Prod.mk.inj (Except.ok.inj hrun)
      have hsent : Covered (.raise sig) [] k (GlitchedOS.raise k sig).2 t := by
        rw [GlitchedOS.raise]
        split
        · exact (KeepsEvents.refl k).covered t
        · have hundeleted : (k.tasks k.current).state ≠ .deleted := fun hdeleted =>
            h.current henabled.1 (.inr hdeleted)
          exact (signalTask_turned hundeleted sig t).covered rfl
      exact hsent.andThen (.enterSyscall _ _)
  | userCode _ | sigaction _ _ | fdOpen _ _ | fdClose _ _ | fcntl _ _ _ | dup2 _ _ _ | pipe _
  | fdSocket _ _ | sigprocmask _ _ | setpgid _ _ | setsid | mount _ _ _ _ | unmount _ _ _ =>
      rw [Op.plain_reports rfl hrun]
      exact (KeepsEvents.of_attrsOnly (Op.plain_attrs rfl hrun)).covered t

theorem Task.Turned.dead {sig : Nat} {x y : Task} (h : x.Turned sig y) (hdead : y.Dead) :
    x.Dead := by
  cases h with
  | kept state event => rwa [Task.Dead, ← state]
  | stopped other undeleted before after event =>
      exact absurd hdead (Task.not_dead_of_state after (by decide))
  | continued cont before after event =>
      exact absurd hdead (Task.not_dead_of_state after (by decide))

theorem Lively.of_signal (h : Lively k) (ht : (k.tasks t).state ≠ .deleted)
    (sig : Nat) : Lively (signalTask k t sig) := by
  have hdead := fun u => (signalTask_turned ht sig u).dead
  have hkeep : ∀ {α : Type} (π : Task → α), (∀ x p, π { x with pendingSignals := p } = π x) →
      (∀ x s g e, π { x with state := s, stopSignal := g, waitpidEvent := e } = π x) →
      ∀ u, π ((signalTask k t sig).tasks u) = π (k.tasks u) := fun π hp hs u =>
    signalTask_proj π hp hs k t sig u
  obtain ⟨hallocated, hswitching⟩ : (signalTask k t sig).allocated = k.allocated ∧
      (signalTask k t sig).switching = k.switching := by
    obtain ⟨_, hsent⟩ := signalTask_pending k t sig
    rw [hsent]
    exact ⟨rfl, rfl⟩
  refine ⟨?_, fun hd => h.idle (hdead _ hd), fun hs hd => ?_⟩
  · refine h.apart.of_proj ?_ ?_ ?_ ?_ ?_
    · rw [hallocated]
      exact h.apart.allocated
    · exact hkeep Task.isKworker (fun _ _ => rfl) (fun _ _ _ _ => rfl) _
    · exact hkeep Task.parent (fun _ _ => rfl) (fun _ _ _ _ => rfl) _
    · exact hkeep Task.child (fun _ _ => rfl) fun _ _ _ _ => rfl
    · exact hkeep Task.nextSibling (fun _ _ => rfl) fun _ _ _ _ => rfl
  · rw [Kernel.currentTask, signalTask_current] at hd
    exact h.current (hswitching.symm.trans hs) (hdead _ hd)

theorem Lively.of_killLoop {pid : Int} {sig : Nat} {l : List Nat} (h : Lively k) :
    Lively (killLoop pid sig l k).2 := by
  induction l generalizing k with
  | nil => exact h
  | cons t rest ih =>
      rw [killLoop]
      split
      · rename_i htarget
        rw [Bool.and_eq_true, decide_eq_true_eq] at htarget
        exact ih (h.of_signal htarget.2 sig)
      · exact ih h

/-- Also a step that stops a zombie leaves the running task alive. -/
theorem step_lively (h : Lively k) (hstep : Step k op k') : Lively k' := by
  by_cases hkill : ∃ pid sig, op = .kill pid sig
  · obtain ⟨pid, sig, rfl⟩ := hkill
    obtain ⟨-, fuel, reports, hrun⟩ := hstep
    obtain ⟨-, res, k₁, rfl, hkill⟩ := kill_ok hrun
    have hleave : Lively k₁ → Lively (leaveSyscall (res, k₁)) := fun h₁ =>
      (KeepsDead.of_attrsOnly h₁ (.enterSyscall k₁ res)).lively
    apply hleave
    obtain ⟨-, rfl⟩ | ⟨-, ring, -, rfl⟩ := hkill
    · exact h
    · exact h.of_killLoop
  · have hspares : op.SparesZombies k := by
      cases op with
      | kill pid sig => exact absurd ⟨pid, sig, rfl⟩ hkill
      | _ => exact trivial
    exact (step_life h hspares hstep).lively

/-- The log accounts for what is owed, and a termination is reported once. -/
structure WaitLog.Accounts (s : WaitLog) : Prop where
  lively : Lively s.kernel
  paid : ∀ t event, s.reported t event + ((s.kernel.tasks t).owes event).toNat ≤
    s.happened t event
  once : ∀ t, s.reported t .terminated = 0 ∨
    s.reported t .terminated = 1 ∧ (s.kernel.tasks t).state = .deleted

/-- A new task owes nothing, as the one that forks does not. -/
theorem forks_owes_none (hforks : op.forks t = true) (hreaps : op.reaps fuel k = true)
    (hrun : op.run fuel k = .ok (reports, k')) (event : WaitEvent) :
    (k'.tasks t).owes event = false := by
  cases op with
  | fork new =>
      obtain rfl : new = t := of_decide_eq_true hforks
      obtain ⟨-, hfork⟩ := reportsNone_nil hrun
      obtain ⟨hstate, hevent⟩ := fork_new hfork
      have hnone : k.currentTask.waitpidEvent = 0 := of_decide_eq_true hreaps
      have hsame : (enterSyscall k 11).currentTask.waitpidEvent = k.currentTask.waitpidEvent :=
        enterSyscall_proj Task.waitpidEvent (fun _ _ => rfl) k 11 k.current
      rw [hsame, hnone] at hevent
      cases event <;> simp [Task.owes, hstate, hevent]
  | _ => cases hforks

theorem WaitLog.Accounts.step {s s' : WaitLog} (h : s.Accounts)
    (hstep : ReapingStep s op s') : s'.Accounts := by
  obtain ⟨fuel, hreaps, hlisted, henabled, reports, hrun, hlog⟩ := hstep
  have hcovered := fun t => step_covered (t := t) h.lively hlisted henabled hreaps hrun
  have hreported := fun t event => congrFun (congrFun (congrArg WaitLog.reported hlog) t) event
  have hhappened := fun t event => congrFun (congrFun (congrArg WaitLog.happened hlog) t) event
  simp only [WaitLog.record] at hreported hhappened
  refine ⟨step_lively h.lively ⟨henabled, fuel, reports, hrun⟩, fun t event => ?_, fun t => ?_⟩
  · rw [hreported, hhappened]
    cases hforks : op.forks t with
    | true =>
        have hnew := forks_owes_none hforks hreaps hrun event
        simp [hnew]
    | false =>
        have hpaid := h.paid t event
        have hcount := (hcovered t hforks).count event
        simp only [Bool.false_eq_true, if_false]
        omega
  · rw [hreported]
    cases hforks : op.forks t with
    | true => exact .inl (if_pos rfl)
    | false =>
        simp only [Bool.false_eq_true, if_false]
        rcases (hcovered t hforks).terminated with hnone | ⟨hone, hbefore, hafter⟩
        · rw [hnone, Nat.add_zero]
          exact (h.once t).imp_right fun hdone =>
            ⟨hdone.1, (hcovered t hforks).deleted (.inl hdone.2)⟩
        · have hzero := (h.once t).resolve_right fun hdone => hbefore hdone.2
          exact .inr ⟨by omega, hafter⟩

theorem bootLog_accounts (info : BootInfo) : (bootLog info).Accounts where
  lively := bootKernel_lively info
  paid := fun t event => by
    have howes : (bootTasks info t).owes event = false := by
      rw [bootTasks]
      split
      · cases event <;> rfl
      split <;> cases event <;> rfl
    have hsame : ((bootLog info).kernel.tasks t).owes event = false := howes
    rw [hsame]
    exact le_rfl
  once := fun _ => .inl rfl

theorem child_status_reported_once (info : BootInfo) {ops : List Op} {s : WaitLog}
    (hrun : Run ReapingStep (bootLog info) ops s) (t : Nat) :
    (∀ event, s.reported t event ≤ s.happened t event) ∧ s.reported t .terminated ≤ 1 := by
  have hend : s.Accounts := hrun.invariant WaitLog.Accounts
    (fun _ _ _ hstep h => h.step hstep) (bootLog_accounts info)
  refine ⟨fun event => ?_, ?_⟩
  · exact (Nat.le_add_right _ _).trans (hend.paid t event)
  · rcases hend.once t with hzero | ⟨hone, -⟩
    · omega
    · omega

/-- The operations in order, each where it is enabled and `keep` holds. -/
def runLogged (fuel : Nat) (keep : Kernel → Op → Bool) : List Op → WaitLog → Option WaitLog
  | [], s => some s
  | op :: rest, s =>
    if op.listed = true ∧ op.enabled s.kernel ∧ keep s.kernel op = true then
      match op.run fuel s.kernel with
      | .ok (reports, k) => runLogged fuel keep rest (s.record op reports k)
      | .error _ => none
    else none

theorem runLogged_run {keep : Kernel → Op → Bool} {ops : List Op}
    {s s' : WaitLog} (h : runLogged fuel keep ops s = some s') :
    Run (fun s op s' => keep s.kernel op = true ∧ LoggedStep fuel s op s') s ops s' := by
  induction ops generalizing s with
  | nil =>
      obtain rfl := Option.some.inj h
      exact .nil s
  | cons op rest ih =>
      rw [runLogged] at h
      split at h
      · rename_i hop
        split at h
        · rename_i reports k hrun
          exact .cons ⟨hop.2.2, hop.1, hop.2.1, reports, hrun, rfl⟩ (ih h)
        · cases h
      · cases h

/-- The first program forks and waits with no place for the status; the child exits, and
`check_blocked_tasks` runs. -/
def childAwaited (pid : Int) : List Op :=
  [.fork 2, .switchTask closes, .runNext, .switchTask closes, .waitpid pid none 0#32,
    .switchTask closes, .exit closes 0, .switchTask closes, .checkBlockedTasks true]

set_option maxRecDepth 2000 in
/-- The first program waits for the child by its number. -/
theorem child_status_reported_once_awaited : ∃ s,
    Run ReapingStep (bootLog smallBoot) (childAwaited 2) s ∧ s.reported 2 .terminated = 1 ∧
      (∀ event, s.reported 2 event ≤ s.happened 2 event) ∧ s.reported 2 .terminated ≤ 1 := by
  have hruns : ∃ s ∈ runLogged 8 (fun k op => op.reaps 8 k) (childAwaited 2) (bootLog smallBoot),
      s.reported 2 .terminated = 1 := by
    decide +kernel
  obtain ⟨s, hs, hone⟩ := hruns
  have hrun : Run ReapingStep (bootLog smallBoot) (childAwaited 2) s :=
    (runLogged_run hs).mono fun _ _ _ hstep => ⟨8, hstep⟩
  exact ⟨s, hrun, hone, child_status_reported_once smallBoot hrun 2⟩

/-- The first program waits for any child, and then once more. -/
def childAwaitedTwice : List Op :=
  childAwaited (-1) ++ [.runNext, .switchTask closes, .waitpid (-1) none 0#32]

/-- The child is stopped, continued and forks, and then waits for its own child. -/
def eventInherited : List Op :=
  [.fork 2, .switchTask closes, .runNext, .switchTask closes, .kill 2 sigStop, .kill 2 sigCont,
    .runNext, .switchTask closes, .fork 3, .switchTask closes, .runNext, .switchTask closes,
    .runNext, .switchTask closes, .waitpid 3 none (wcontinued ||| wnohang)]

set_option maxRecDepth 2000 in
/-- One termination is reported twice, and a task that was never stopped is reported as
continued. -/
theorem child_reported_twice :
    (∃ s, Run WaitStep (bootLog smallBoot) childAwaitedTwice s ∧
      s.happened 2 .terminated = 1 ∧ s.reported 2 .terminated = 2) ∧
    ∃ s, Run WaitStep (bootLog smallBoot) eventInherited s ∧
      s.happened 3 .continued = 0 ∧ s.reported 3 .continued = 1 := by
  have hfirst : ∃ s ∈ runLogged 8 (fun _ _ => true) childAwaitedTwice (bootLog smallBoot),
      s.happened 2 .terminated = 1 ∧ s.reported 2 .terminated = 2 := by
    decide +kernel
  have hsecond : ∃ s ∈ runLogged 8 (fun _ _ => true) eventInherited (bootLog smallBoot),
      s.happened 3 .continued = 0 ∧ s.reported 3 .continued = 1 := by
    have henabled : (Op.fork 2).enabled (bootKernel smallBoot) := by decide
    have hborn : Op.run 8 (bootLog smallBoot).kernel (.fork 2) = .ok ([], childBorn) :=
      fork_childBorn
    rw [eventInherited, runLogged, if_pos ⟨rfl, henabled, rfl⟩, hborn]
    decide +kernel
  have hstep : ∀ {ops : List Op} {s : WaitLog},
      s ∈ runLogged 8 (fun _ _ => true) ops (bootLog smallBoot) →
      Run WaitStep (bootLog smallBoot) ops s := fun hs =>
    (runLogged_run hs).mono fun _ _ _ hstep => ⟨8, hstep.2⟩
  obtain ⟨s, hs, hcounts⟩ := hfirst
  obtain ⟨s', hs', hcounts'⟩ := hsecond
  exact ⟨⟨s, hstep hs, hcounts⟩, s', hstep hs', hcounts'⟩

end GlitchedOS
