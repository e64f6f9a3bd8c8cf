/-
Descriptions over whole runs.  Most of the system leaves descriptors alone; the calls of
`fd.c` write to one table, a new task gets a copy that is counted, and a task that ends has
closed what it had open.
-/
import GlitchedOS.Process.DescriptorCalls
import GlitchedOS.Process.TreeRuns

namespace GlitchedOS

variable {k k' k'' : Kernel} {ring ring' : List Nat} {extra : Nat → Nat}
variable {fuel new : Nat} {r : Int × Kernel} {f : Task → Task} {env : ExecEnv}

/-! ### Steps that leave descriptors alone -/

/-- Descriptors, descriptions, pipes and mounts stay, no task is new, only ended tasks are
freed, and none ends. -/
structure TablesKept (k k' : Kernel) : Prop where
  table : ∀ t, (k'.tasks t).fdTable = (k.tasks t).fdTable
  files : k'.files = k.files
  pipes : k'.pipes = k.pipes
  livePipes : k'.livePipes = k.livePipes
  vfs : k'.vfs = k.vfs
  allocated : k'.allocated ⊆ k.allocated
  freed : ∀ t ∈ k.allocated, t ∉ k'.allocated → (k.tasks t).Dead
  dead : ∀ t, (k'.tasks t).Dead → (k.tasks t).Dead

namespace TablesKept

theorem of_quiet (hq : Quiet k k') (hs : SchedOnly k k') : TablesKept k k' where
  table := fun t => congrArg (fun b => b.2.2.2) (hs.body t)
  files := hs.files
  pipes := hs.pipes
  livePipes := hs.livePipes
  vfs := hs.vfs
  allocated := hq.allocated.le
  freed := fun _ ht hout => absurd (hq.allocated ▸ ht) hout
  dead := fun t hd => (hq.life t).dead.mp hd

theorem refl (k : Kernel) : TablesKept k k := .of_quiet (.refl k) (.refl k)

theorem trans (h : TablesKept k k') (h' : TablesKept k' k'') : TablesKept k k'' where
  table := fun t => (h'.table t).trans (h.table t)
  files := h'.files.trans h.files
  pipes := h'.pipes.trans h.pipes
  livePipes := h'.livePipes.trans h.livePipes
  vfs := h'.vfs.trans h.vfs
  allocated := h'.allocated.trans h.allocated
  freed := fun t ht hout => by
    by_cases hmid : t ∈ k'.allocated
    · exact h.dead t (h'.freed t hmid hout)
    · exact h.freed t ht hmid
  dead := fun t hd => h.dead t (h'.dead t hd)

theorem modifyTask (k : Kernel) (t : Nat)
    (hf : (f (k.tasks t)).fdTable = (k.tasks t).fdTable)
    (hdead : (f (k.tasks t)).Dead → (k.tasks t).Dead) : TablesKept k (k.modifyTask t f) where
  table := fun u => Kernel.modifyTask_proj Task.fdTable k t u hf
  files := rfl
  pipes := rfl
  livePipes := rfl
  vfs := rfl
  allocated := Finset.Subset.refl _
  freed := fun _ ht hout => absurd ht hout
  dead := fun u hd => by
    rw [Kernel.modifyTask_apply] at hd
    split at hd
    · rename_i heq
      subst heq
      exact hdead hd
    · exact hd

theorem enterSyscall (k : Kernel) (number : Int) :
    TablesKept k (GlitchedOS.enterSyscall k number) :=
  .of_quiet (.of_attrsOnly (.enterSyscall k number)) (.enterSyscall k number)

theorem of_linksOnly (h : LinksOnly k k') : TablesKept k k' := by
  have htable := h.proj Task.fdTable fun _ _ => rfl
  have hstate := h.proj Task.state fun _ _ => rfl
  have hdead : ∀ t, (k'.tasks t).Dead → (k.tasks t).Dead := fun t hd => by
    rwa [Task.Dead, hstate] at hd
  obtain ⟨_, rfl⟩ := h
  exact ⟨htable, rfl, rfl, rfl, rfl, Finset.Subset.refl _, fun _ ht hout => absurd ht hout, hdead⟩

theorem runNext (h : GlitchedOS.runNext fuel k = .ok k') : TablesKept k k' := by
  rw [GlitchedOS.runNext, bind_ok_iff] at h
  obtain ⟨k₁, hgc, h⟩ := h
  have hready : TablesKept k (k.modifyCurrent fun x =>
      if x.state = .running then { x with state := .ready } else x) := by
    refine modifyTask k k.current ?_ fun hd => ?_
    · split <;> rfl
    · split at hd
      · exact absurd hd (Task.not_dead_of_state (s := .ready) rfl (by decide))
      · exact hd
  have hcollected := gcLoop_collected hgc
  have hstate := hcollected.links Task.state fun _ _ => rfl
  have hfreed : TablesKept _ k₁ :=
    ⟨hcollected.links Task.fdTable fun _ _ => rfl, hcollected.files, hcollected.pipes,
      hcollected.livePipes, hcollected.vfs, hcollected.allocated,
      fun t ht hout => .inr (hcollected.freed t ht hout), fun t hd => by
        rwa [Task.Dead, hstate] at hd⟩
  obtain rfl := Except.ok.inj h
  have hdone := hready.trans hfreed
  exact ⟨hdone.table, hdone.files, hdone.pipes, hdone.livePipes, hdone.vfs, hdone.allocated,
    hdone.freed, hdone.dead⟩

theorem block
    (hf : (f k.currentTask).fdTable = k.currentTask.fdTable) (hstate : ¬(f k.currentTask).Dead)
    (h : GlitchedOS.runNext fuel (k.modifyCurrent f) = .ok k') : TablesKept k k' :=
  .trans (.modifyTask k k.current hf fun hd => absurd hd hstate) (runNext h)

theorem sigprocmask (k : Kernel) (how : Int) (set : BitVec 32) :
    TablesKept k (GlitchedOS.sigprocmask k how set).2 := by
  have hinstall : ∀ mask : BitVec 32, TablesKept k (k.modifyCurrent fun x =>
      { x with signalMask := mask }) := fun _ => modifyTask k k.current rfl id
  rw [GlitchedOS.sigprocmask]
  dsimp only
  split
  · exact hinstall _
  split
  · exact hinstall _
  split
  · exact hinstall _
  · exact refl k

theorem setsid (k : Kernel) : TablesKept k (GlitchedOS.setsid k).2 := by
  rw [GlitchedOS.setsid]
  split
  · exact refl k
  · exact modifyTask k k.current (f := fun x => { x with sid := x.pid, pgid := x.pid }) rfl id

theorem setpgid {pid pgid : Int}
    (h : GlitchedOS.setpgid fuel k pid pgid = .ok r) : TablesKept k r.2 := by
  rcases setpgid_ok h with heq | ⟨t, p, heq⟩
  · rw [heq]
    exact refl k
  · rw [heq]
    exact modifyTask k t rfl id

theorem sigaction (k : Kernel) (sig : Nat) (handler : Handler) :
    TablesKept k (GlitchedOS.sigaction k sig handler).2 := by
  rw [GlitchedOS.sigaction]
  split
  · exact refl k
  split
  · exact refl k
  · exact modifyTask k k.current (f := fun x =>
      { x with signalHandlers := Function.update x.signalHandlers sig handler }) rfl id

end TablesKept

/-- The operations that deal with no descriptor and no mount, make no task and end none. -/
def Op.keepsTables : Op → Bool
  | .userCode _ | .runNext | .checkBlockedTasks _ | .sleep _ | .waitpid _ _ _ | .kill _ _
  | .raise _ | .sigaction _ _ | .sigprocmask _ _ | .setpgid _ _ | .setsid => true
  | _ => false

theorem step_tablesKept {op : Op} (hl : Lively k) (hspares : op.SparesZombies k)
    (hop : op.keepsTables = true) (hstep : Step k op k') : TablesKept k k' := by
  obtain ⟨henabled, fuel, reports, hrun⟩ := hstep
  cases op with
  | userCode regs =>
      obtain ⟨-, rfl⟩ := Prod.mk.inj (Except.ok.inj hrun)
      exact .modifyTask k k.current rfl id
  | runNext =>
      replace hrun := reportsNone_ok hrun
      exact .runNext hrun
  | checkBlockedTasks reduceTicks =>
      rw [Op.run, GlitchedOS.checkBlockedTasks, bind_ok_iff] at hrun
      obtain ⟨l, -, hrun⟩ := hrun
      exact .of_quiet (checkBlockedLoop_life hrun) (.of_waitOnly (.checkBlockedLoop hrun))
  | sleep ms =>
      replace hrun := reportsNone_ok hrun
      refine .trans (.enterSyscall k 16) ?_
      rw [GlitchedOS.sleep] at hrun
      split at hrun
      · obtain rfl := Except.ok.inj hrun
        exact .enterSyscall (enterSyscall k 16) 0
      · exact .block rfl (Task.not_dead_of_state (s := .blocked) rfl (by decide)) hrun
  | waitpid pid wstatus options =>
      rw [Op.run, sysWaitpid, bind_ok_iff] at hrun
      obtain ⟨⟨r, k₁⟩, hwait, hrun⟩ := hrun
      refine .trans (.enterSyscall k 53) ?_
      rcases waitpid_ok hwait with ⟨ret, -, rfl, rfl⟩ |
          ⟨child, event, -, hevent, rfl, rfl⟩ | ⟨rfl, target, -, hnext⟩
      · obtain ⟨-, rfl⟩ := Prod.mk.inj (Except.ok.inj hrun)
        exact .enterSyscall _ _
      · obtain ⟨-, rfl⟩ := Prod.mk.inj (Except.ok.inj hrun)
        exact .trans (.of_quiet (report_life hevent _ _ _)
          (.of_waitOnly ((WaitOnly.storeStatus _ _ _ _).trans (.consumeEvent _ _ _))))
          (.enterSyscall _ _)
      · obtain ⟨-, rfl⟩ := Prod.mk.inj (Except.ok.inj hrun)
        exact .block rfl (Task.not_dead_of_state (s := .blocked) rfl (by decide)) hnext
  | kill pid sig =>
      obtain ⟨-, res, k₁, rfl, hkill⟩ := kill_ok hrun
      refine .trans ?_ (.enterSyscall k₁ res)
      obtain ⟨-, rfl⟩ | ⟨-, l, hl', rfl⟩ := hkill
      · exact .refl k
      · exact .of_quiet (killLoop_life (hspares fuel l hl')) (.killLoop l k)
  | raise sig =>
      obtain ⟨-, rfl⟩ := Prod.mk.inj (Except.ok.inj hrun)
      refine .trans (.of_quiet (raise_life (hl.current henabled.1) sig) ?_) (.enterSyscall _ _)
      rw [GlitchedOS.raise]
      split
      · exact .refl k
      · exact .signalTask k k.current sig
  | sigaction sig handler =>
      obtain ⟨-, rfl⟩ := Prod.mk.inj (Except.ok.inj hrun)
      exact .trans (.sigaction k sig handler) (.enterSyscall _ _)
  | sigprocmask how set =>
      obtain ⟨-, rfl⟩ := Prod.mk.inj (Except.ok.inj hrun)
      exact .trans (.sigprocmask k how set) (.enterSyscall _ _)
  | setpgid pid pgid =>
      rw [Op.run, bind_ok_iff] at hrun
      obtain ⟨r, hset, hk⟩ := hrun
      obtain ⟨-, rfl⟩ := Prod.mk.inj (Except.ok.inj hk)
      exact .trans (.setpgid hset) (.enterSyscall _ _)
  | setsid =>
      obtain ⟨-, rfl⟩ := Prod.mk.inj (Except.ok.inj hrun)
      exact .trans (.setsid k) (.enterSyscall _ _)
  | switchTask _ | deliverSignals _ | createKworker _ _ | kworkerExit | fork _ | spawn _ _ _ _
  | execve _ _ _ _ | exit _ _ | fdOpen _ _ | fdClose _ _ | fcntl _ _ _ | dup2 _ _ _ | pipe _
  | fdSocket _ _ | mount _ _ _ _ | unmount _ _ _ => cases hop

/-! ### The books -/

/-- The task has no descriptor open. -/
def Task.Closed (x : Task) : Prop := ∀ fd < maxFds, (x.fdTable fd).fd = none

theorem Task.Closed.holds {x : Task} (h : x.Closed) (d : Nat) : x.holds d = 0 := by
  refine tally_eq_zero_iff.mpr fun fd hfd => ?_
  rw [h fd hfd]
  exact (Option.some_ne_none d).symm

/-- Everything is counted, ended tasks have nothing open, and the open files are on mounts
of the tree. -/
structure Accounted (k : Kernel) (extra : Nat → Nat) : Prop where
  exact : FilesExact k extra
  closed : ∀ t ∈ k.allocated, (k.tasks t).Dead → (k.tasks t).Closed
  rooted : RootedTree k.vfs
  reached : ∀ m, 0 < users k (.mount m) → Reached k.vfs m

/-- The same, whatever the task `t` has open. -/
structure AccountedBut (t : Nat) (k : Kernel) (extra : Nat → Nat) : Prop where
  exact : FilesExact k extra
  closed : ∀ u ∈ k.allocated, u ≠ t → (k.tasks u).Dead → (k.tasks u).Closed
  rooted : RootedTree k.vfs
  reached : ∀ m, 0 < users k (.mount m) → Reached k.vfs m

theorem FilesExact.users_le (h : FilesExact k extra) (h' : FilesExact k' extra) {m : Nat}
    (hle : (k'.vfs.mounts m).refcount ≤ (k.vfs.mounts m).refcount) :
    users k' (.mount m) ≤ users k (.mount m) := by
  have hold := h.mounts m
  have hnew := h'.mounts m
  omega

namespace Accounted

theorem tablesKept (h : Accounted k extra) (hkept : TablesKept k k') : Accounted k' extra where
  exact := by
    refine h.exact.congr (fun c => ?_) (fun c => by rw [hkept.files])
      (fun c => by rw [hkept.files]) hkept.pipes hkept.livePipes fun m => by rw [hkept.vfs]
    have hholds : ∀ t, (k'.tasks t).holds c = (k.tasks t).holds c := fun t =>
      Task.holds_congr (fun fd _ => by rw [hkept.table]) c
    rw [held, held, Finset.sum_congr rfl fun t _ => hholds t]
    refine Finset.sum_subset hkept.allocated fun t ht hout => ?_
    exact (h.closed t ht (hkept.freed t ht hout)).holds c
  closed := fun t ht hd fd hfd => by
    rw [hkept.table]
    exact h.closed t (hkept.allocated ht) (hkept.dead t hd) fd hfd
  rooted := hkept.vfs ▸ h.rooted
  reached := fun m hm => by
    rw [users_of_files hkept.files] at hm
    rw [hkept.vfs]
    exact h.reached m hm

theorem ending (h : Accounted k extra) (t : Nat)
    (hf : (f (k.tasks t)).fdTable = (k.tasks t).fdTable) :
    AccountedBut t (k.modifyTask t f) extra where
  exact := h.exact.congr (held_congr rfl fun u fd _ => by
      rw [Kernel.modifyTask_proj Task.fdTable k t u hf]) (fun _ => rfl) (fun _ => rfl) rfl rfl
    fun _ => rfl
  closed := fun u hu hut hd => by
    rw [Kernel.modifyTask_ne k _ hut] at hd ⊢
    exact h.closed u hu hd
  rooted := h.rooted
  reached := h.reached

end Accounted

namespace AccountedBut

variable {t : Nat}

theorem close (h : AccountedBut t k extra) (hself : (k.tasks t).Dead → (k.tasks t).Closed) :
    Accounted k extra where
  exact := h.exact
  closed := fun u hu hd => by
    by_cases hut : u = t
    · subst hut
      exact hself hd
    · exact h.closed u hu hut hd
  rooted := h.rooted
  reached := h.reached

theorem fdCall (h : AccountedBut t k extra) (hcall : FdCall t k k') (hfiles : FilesOnly k k')
    (ht : t ∈ k.allocated) : AccountedBut t k' extra := by
  have hexact := hcall.exact ht h.exact
  have hstate := hfiles.proj Task.state fun _ _ => rfl
  refine ⟨hexact, fun u hu hut hd => ?_, hcall.mounts.rooted h.rooted, fun m hm => ?_⟩
  · rw [Task.Dead, hstate] at hd
    intro fd hfd
    rw [hcall.others u hut]
    exact h.closed u (hcall.allocated ▸ hu) hut hd fd hfd
  · exact hcall.mounts.reached (h.reached m
      (hm.trans_le (h.exact.users_le hexact (hcall.refcount m))))

theorem redirectWaiters (h : AccountedBut t k extra) (old new : Nat) (l : List Nat) :
    AccountedBut t (GlitchedOS.redirectWaiters old new l k) extra := by
  induction l generalizing k with
  | nil => exact h
  | cons u rest ih =>
      rw [GlitchedOS.redirectWaiters]
      refine ih ?_
      split
      · have htable : ∀ v, ((k.modifyTask u fun x => { x with blockedProcess := some new }).tasks
            v).fdTable = (k.tasks v).fdTable :=
          fun v => Kernel.modifyTask_proj Task.fdTable k u v rfl
        refine ⟨h.exact.congr (held_congr rfl fun v fd _ => by rw [htable]) (fun _ => rfl)
          (fun _ => rfl) rfl rfl fun _ => rfl, fun v hv hvt hd fd hfd => ?_, h.rooted, h.reached⟩
        rw [Task.Dead, Kernel.modifyTask_proj Task.state k u v rfl] at hd
        rw [htable]
        exact h.closed v hv hvt hd fd hfd
      · exact h

end AccountedBut

namespace Accounted

theorem fdCall (h : Accounted k extra) {t : Nat} (hcall : FdCall t k k') (hfiles : FilesOnly k k')
    (ht : t ∈ k.allocated) (halive : ¬(k.tasks t).Dead) : Accounted k' extra := by
  have hbut : AccountedBut t k extra := ⟨h.exact, fun u hu _ => h.closed u hu, h.rooted, h.reached⟩
  refine (hbut.fdCall hcall hfiles ht).close fun hd => absurd ?_ halive
  rwa [Task.Dead, hfiles.proj Task.state fun _ _ => rfl] at hd

/-- A task with nothing open ends. -/
theorem ends (h : Accounted k extra) (t : Nat)
    (hf : (f (k.tasks t)).fdTable = (k.tasks t).fdTable) (hclosed : (k.tasks t).Closed) :
    Accounted (k.modifyTask t f) extra :=
  (h.ending t hf).close fun _ fd hfd => by
    rw [Kernel.modifyTask_proj Task.fdTable k t t hf]
    exact hclosed fd hfd

theorem exit (h : Accounted k extra) {env : CloseEnv} (henv : env.Closes) {ret : Int}
    (ht : k.current ∈ k.allocated) (halive : ¬k.currentTask.Dead)
    (hexit : GlitchedOS.exit env fuel k ret = .ok k') : Accounted k' extra := by
  obtain ⟨k₁, -, hk₁, htask⟩ := exit_ok hexit
  obtain ⟨hcall, hclosed⟩ := FdCall.releaseProcessFds henv k
  have hfiles := FilesOnly.releaseProcessFds env k
  rw [← hk₁] at hcall hclosed hfiles
  obtain ⟨parent, k₂, -, hreparent, rfl⟩ := exitTask_ok htask
  have hzombie : Accounted (k₁.modifyCurrent fun x =>
      { x with state := .zombie, returnCode := ret }) extra := by
    refine (h.fdCall hcall hfiles ht halive).ends k₁.current rfl ?_
    rw [hfiles.current]
    exact hclosed
  have htold := hzombie.tablesKept (.modifyTask _ parent (f := fun x =>
    { x with pendingSignals := x.pendingSignals ||| sigBit sigChld }) rfl id)
  have hdone := htold.tablesKept (.of_linksOnly (.reparent hreparent))
  exact hdone.tablesKept ⟨fun _ => rfl, rfl, rfl, rfl, rfl, Finset.Subset.refl _,
    fun _ ht hout => absurd ht hout, fun _ hd => hd⟩

theorem deliverSignals (h : Accounted k extra) {env : CloseEnv} (henv : env.Closes)
    (ht : k.current ∈ k.allocated) (halive : ¬k.currentTask.Dead)
    (hdeliver : GlitchedOS.deliverSignals env fuel k = .ok k') : Accounted k' extra := by
  obtain ⟨p, f, g, b, hdone⟩ := deliverSignals_ok hdeliver
  have hwrite := h.tablesKept (.modifyTask k k.current (f := (·.withSignals p f g b)) rfl id)
  rcases hdone with rfl | ⟨-, ret, hexit⟩
  · exact hwrite
  · refine hwrite.exit henv ht ?_ hexit
    rw [Task.Dead, show (k.modifyTask k.current (·.withSignals p f g b)).currentTask.state =
      k.currentTask.state from
      Kernel.modifyTask_proj Task.state k k.current k.current rfl]
    exact halive

theorem switchTask (h : Accounted k extra) (ho : Orderly k ring) {env : CloseEnv}
    (henv : env.Closes) (hswitch : GlitchedOS.switchTask env fuel k = .ok k') :
    Accounted k' extra := by
  obtain ⟨next, rr, hloop, hdeliver⟩ := switchTask_ok hswitch
  have hmem : next.getD idleTask ∈ k.allocated := by
    cases next with
    | none => exact ho.lively.apart.allocated
    | some t =>
        obtain ⟨hrr, hnext⟩ := ho.tree.order.nextLoop ho.tree.order.rr hloop
        exact (ho.tree.order.allocated t (hnext t rfl ▸ hrr)).1
  have hrunning : TablesKept k (k.modifyTask (next.getD idleTask) fun x =>
      { x with state := .running }) := .modifyTask k _ rfl fun hd => absurd hd
    (Task.not_dead_of_state (s := .running) rfl (by decide))
  have hchosen : TablesKept k (chooseTask k (next.getD idleTask) rr) :=
    hrunning.trans ⟨fun _ => rfl, rfl, rfl, rfl, rfl, Finset.Subset.refl _,
      fun _ ht hout => absurd ht hout, fun _ hd => hd⟩
  refine (h.tablesKept hchosen).deliverSignals henv hmem ?_ hdeliver
  refine Task.not_dead_of_state (s := .running) ?_ (by decide)
  rw [chooseTask, Kernel.currentTask]
  simp

/-! ### New tasks -/

/-- A living task is made with the descriptors of the task `u`. -/
theorem copyTable (h : Accounted k extra) {u : Nat} {phys : PhysMem} {x : Task}
    (hnew : new ∉ k.allocated) (hu : u ∈ k.allocated) (hx : x.fdTable = (k.tasks u).fdTable)
    (halive : ¬x.Dead) :
    Accounted (addRefs x.fdTable (allocTask k new phys x)) extra := by
  have hexact : FilesExact (addRefs x.fdTable (allocTask k new phys x)) extra :=
    h.exact.copyTable hnew hu hx
  have hvfs : (addRefs x.fdTable (allocTask k new phys x)).vfs = k.vfs := by
    rw [addRefs_eq]
    rfl
  have htasks : (addRefs x.fdTable (allocTask k new phys x)).tasks =
      (allocTask k new phys x).tasks := by
    rw [addRefs_eq]
  have halloc : (addRefs x.fdTable (allocTask k new phys x)).allocated =
      insert new k.allocated := by
    rw [addRefs_eq]
    rfl
  refine ⟨hexact, fun t ht hd => ?_, hvfs ▸ h.rooted, fun m hm => ?_⟩
  · rw [htasks] at hd ⊢
    rw [halloc, Finset.mem_insert] at ht
    by_cases heq : t = new
    · subst heq
      rw [allocTask_new] at hd
      exact absurd hd halive
    · rw [allocTask_ne k phys x heq] at hd ⊢
      exact h.closed t (ht.resolve_left heq) hd
  · rw [hvfs]
    refine h.reached m (hm.trans_le (h.exact.users_le hexact ?_))
    rw [hvfs]

/-- The process numbers and the processor are no matter of descriptors. -/
theorem setRun (h : Accounted k extra) (lastPid : Int) (switching : Bool) :
    Accounted { k with lastPid := lastPid, switching := switching } extra :=
  h.tablesKept ⟨fun _ => rfl, rfl, rfl, rfl, rfl, Finset.Subset.refl _,
    fun _ ht hout => absurd ht hout, fun _ hd => hd⟩

theorem setCurrent (h : Accounted k extra) (t : Nat) : Accounted { k with current := t } extra :=
  h.tablesKept ⟨fun _ => rfl, rfl, rfl, rfl, rfl, Finset.Subset.refl _,
    fun _ ht hout => absurd ht hout, fun _ hd => hd⟩

theorem fork (h : Accounted k extra) (ht : k.current ∈ k.allocated)
    (hnew : new ∉ k.allocated) (hfork : GlitchedOS.fork k new = .ok k') : Accounted k' extra := by
  obtain ⟨cr3, phys, k₁, -, hk₁, rfl⟩ := fork_ok hfork
  have hmade : Accounted k₁ extra := by
    rw [hk₁]
    exact h.copyTable (x := { k.currentTask with state := .ready, cr3 := cr3 }) hnew ht rfl
      (Task.not_dead_of_state (s := .ready) rfl (by decide))
  rw [forkLink]
  have hlinked := (hmade.tablesKept (.of_linksOnly (.linkTask k₁ new k₁.current))).setRun
    ((linkTask k₁ new k₁.current).lastPid + 1) true
  refine (hlinked.tablesKept (.modifyTask _ new rfl id)).tablesKept (.modifyTask _ _ rfl ?_)
  exact fun hd => absurd hd (Task.not_dead_of_state (s := .ready) rfl (by decide))

/-- An action of `spawn` deals with the descriptors of the new task. -/
theorem spawnActions {env : CloseEnv} (henv : env.Closes) {pid : Int}
    {actions : List SpawnAction} (h : Accounted k extra)
    (hnew : new ∈ k.allocated) (halive : ¬(k.tasks new).Dead)
    (hrun : GlitchedOS.spawnActions env fuel new pid actions k = .ok r) :
    Accounted r.2 extra := by
  have hone : ∀ {k : Kernel} {a : SpawnAction} {r : Int × Kernel}, Accounted k extra →
      new ∈ k.allocated → ¬(k.tasks new).Dead → spawnAction env fuel k new pid a = .ok r →
      Accounted r.2 extra := by
    intro k a r h hnew halive hrun
    have hchild := h.setCurrent new
    rw [spawnAction] at hrun
    dsimp only at hrun
    split at hrun
    · obtain rfl := Except.ok.inj hrun
      exact (hchild.fdCall (.dup2 henv { k with current := new } a.oldfd a.newfd)
        (.dup2 env _ _ _) hnew halive).setCurrent k.current
    · obtain rfl := Except.ok.inj hrun
      exact (hchild.tablesKept (.sigprocmask _ a.sigmaskHow a.sigmask)).setCurrent k.current
    · rw [bind_ok_iff] at hrun
      obtain ⟨r', hset, hrun⟩ := hrun
      obtain rfl := Except.ok.inj hrun
      exact (hchild.tablesKept (.setpgid hset)).setCurrent k.current
    · obtain rfl := Except.ok.inj hrun
      exact (hchild.tablesKept (.setsid _)).setCurrent k.current
    · obtain rfl := Except.ok.inj hrun
      exact h
  induction actions generalizing k with
  | nil =>
      obtain rfl := Except.ok.inj hrun
      exact h
  | cons a rest ih =>
      rw [GlitchedOS.spawnActions, bind_ok_iff] at hrun
      obtain ⟨⟨res, k₁⟩, hfirst, hrun⟩ := hrun
      have hq := Quiet.of_attrsOnly (AttrsOnly.spawnAction hfirst)
      have hacted := hone h hnew halive hfirst
      dsimp only at hrun
      split at hrun
      · obtain rfl := Except.ok.inj hrun
        exact hacted
      · exact ih hacted (hq.allocated ▸ hnew) (fun hd => halive ((hq.life new).dead.mp hd)) hrun

theorem startTask (h : Accounted k extra) {parent : Option Nat} {pid : Int}
    (hstart : GlitchedOS.startTask env k parent pid new = .ok r) :
    Accounted r.2 extra := by
  rw [GlitchedOS.startTask, bind_ok_iff] at hstart
  obtain ⟨⟨res, program, k₁⟩, hload, hstart⟩ := hstart
  obtain ⟨phys, rfl⟩ := loadProgram_phys hload
  have hloaded : Accounted { k with phys := phys } extra :=
    h.tablesKept ⟨fun _ => rfl, rfl, rfl, rfl, rfl, Finset.Subset.refl _,
      fun _ ht hout => absurd ht hout, fun _ hd => hd⟩
  dsimp only at hstart
  split at hstart
  · obtain rfl := Except.ok.inj hstart
    exact hloaded
  split at hstart
  · cases hstart
  · obtain rfl := Except.ok.inj hstart
    exact (hloaded.tablesKept (.modifyTask _ new rfl id)).tablesKept
      (.of_linksOnly (.linkTask _ new _))

theorem addTask (h : Accounted k extra) (henv : env.closeEnv.Closes) {args : ExecArgs}
    {parent : Option Nat} {pid : Int}
    (ht : k.current ∈ k.allocated) (hnew : new ∉ k.allocated)
    (hadd : GlitchedOS.addTask env fuel k args parent pid new = .ok r) : Accounted r.2 extra := by
  rw [GlitchedOS.addTask] at hadd
  split at hadd
  · obtain rfl := Except.ok.inj hadd
    exact h
  rw [bind_ok_iff] at hadd
  obtain ⟨k₁, hmake, hadd⟩ := hadd
  rw [bind_ok_iff] at hadd
  obtain ⟨⟨res, k₂⟩, hactions, hadd⟩ := hadd
  obtain ⟨cr3, phys, -, hk₁⟩ := newTask_ok hmake
  have hready : ¬(execTask k cr3 pid).Dead :=
    Task.not_dead_of_state (s := .ready) rfl (by decide)
  have hmade : Accounted k₁ extra := by
    rw [hk₁]
    exact h.copyTable (x := execTask k cr3 pid) hnew ht rfl hready
  have hq₁ := Quiet.of_attrsOnly (.of_filesOnly
    (FilesOnly.addRefs k.currentTask.fdTable (allocTask k new phys (execTask k cr3 pid))))
  rw [execTask, ← hk₁] at hq₁
  have hmem : new ∈ k₁.allocated := hq₁.allocated ▸ Finset.mem_insert_self new k.allocated
  have halive : ¬(k₁.tasks new).Dead := fun hd => by
    have hdead := (hq₁.life new).dead.mp hd
    rw [allocTask_new] at hdead
    exact hready hdead
  have hacted : Accounted k₂ extra := hmade.spawnActions henv hmem halive hactions
  have hq₂ := Quiet.of_attrsOnly (AttrsOnly.spawnActions hactions)
  dsimp only at hadd
  split at hadd
  · obtain rfl := Except.ok.inj hadd
    exact hacted
  · refine startTask (hacted.fdCall (.closeOnExec henv new k₂) (.closeOnExec env.closeEnv new k₂)
      (hq₂.allocated ▸ hmem) fun hd => halive ((hq₂.life new).dead.mp hd)) hadd

theorem addTask_allocated {args : ExecArgs} {parent : Option Nat} {pid res : Int}
    (hadd : GlitchedOS.addTask env fuel k args parent pid new = .ok (res, k')) :
    k.allocated ⊆ k'.allocated := by
  rcases addTask_cases hadd with ⟨-, rfl⟩ | ⟨phys, cr3, ⟨-, -, hattrs⟩ |
    ⟨p, k₂, -, -, hattrs, rfl⟩⟩
  · exact Finset.Subset.refl _
  · rw [(Quiet.of_attrsOnly hattrs).allocated]
    exact Finset.subset_insert new k.allocated
  · show k.allocated ⊆ k₂.allocated
    rw [(Quiet.of_attrsOnly hattrs).allocated]
    exact Finset.subset_insert new k.allocated

theorem spawn (h : Accounted k extra) (henv : env.closeEnv.Closes)
    {args : ExecArgs} (ht : k.current ∈ k.allocated)
    (hnew : new ∉ k.allocated) (hspawn : GlitchedOS.spawn env fuel k args new = .ok r) :
    Accounted r.2 extra := by
  obtain ⟨k₁, hadd, hways⟩ := spawn_ok hspawn
  have hmade := (h.setRun (k.lastPid + 1) k.switching).addTask henv ht hnew hadd
  rcases hways with ⟨-, heq⟩ | ⟨-, heq⟩
  · rw [heq]
    exact hmade
  · rw [heq]
    refine (hmade.tablesKept (.modifyTask k₁ k₁.current rfl ?_)).setRun _ true
    exact fun hd => absurd hd (Task.not_dead_of_state (s := .ready) rfl (by decide))

theorem execve (h : Accounted k extra) (henv : env.closeEnv.Closes) {args : ExecArgs}
    (ht : k.current ∈ k.allocated)
    (hnew : new ∉ k.allocated) (hexec : GlitchedOS.execve env fuel k args new = .ok r) :
    Accounted r.2 extra := by
  obtain ⟨k₁, hadd, hways⟩ := execve_ok hexec
  have hmade := h.addTask henv ht hnew hadd
  rcases hways with ⟨-, heq⟩ | ⟨-, l, k₂, k₃, -, hk₂, hk₃, hfinish⟩
  · rw [heq]
    exact hmade
  obtain ⟨k₄, hreparent, heq⟩ := execveFinish_ok hfinish
  have hcurrent : k₂.current = k.current := by
    rw [hk₂, (redirectWaiters_life _ _ _ _).current]
    exact (addTask_current hadd).1
  have hmem : k.current ∈ k₂.allocated := by
    rw [hk₂, (redirectWaiters_life _ _ _ _).allocated]
    exact addTask_allocated hadd ht
  have hdeleted : AccountedBut k.current k₂ extra := by
    rw [hk₂]
    exact (hmade.ending k.current rfl).redirectWaiters k.current new _
  obtain ⟨hcall, hclosed⟩ := FdCall.releaseProcessFds henv k₂
  have hfiles := FilesOnly.releaseProcessFds env.closeEnv k₂
  rw [← hk₃, hcurrent] at hcall hclosed
  rw [← hk₃] at hfiles
  have hreleased := (hdeleted.fdCall hcall hfiles hmem).close fun _ => hclosed
  rw [heq]
  exact (hreleased.tablesKept (.of_linksOnly (.reparent hreparent))).setRun k₄.lastPid true

end Accounted

end GlitchedOS
