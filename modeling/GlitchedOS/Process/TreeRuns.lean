/-
Runs of the system keep the task ring and the process tree in order.  As long as
no program fails to start once its task is made, and no kernel worker is made
while the idle task runs, every allocated task is in the ring.
-/
import GlitchedOS.Process.TreePrograms

namespace GlitchedOS

variable {k k' k'' : Kernel} {ring ring' : List Nat}

/-- The step leaves no task out of reach: a program whose arguments are accepted
starts, and kernel workers are made by tasks of the ring. -/
def Op.LeaksNoTask (k : Kernel) : Op → Prop
  | .spawn env pathRes args new => 0 ≤ pathRes →
      Completes env args { enterSyscall k 54 with lastPid := k.lastPid + 1 } new
        (k.lastPid + 1)
  | .execve env pathRes args new => 0 ≤ pathRes →
      Completes env { args with actions := none } (enterSyscall k 12) new
        (enterSyscall k 12).currentTask.pid
  | .createKworker _ _ => k.current ≠ idleTask
  | _ => True

/-- What a step leaves of the ring and of the running task. -/
def StepTree (op : Op) (k : Kernel) (ring : List Nat) (k' : Kernel) : Prop :=
  GrowsTree (op.LeaksNoTask k) k ring k' ∧ Awake k'

theorem KeepsTree.of_enter {complete : Prop} {number : Int}
    (h : KeepsTree (enterSyscall k number) ring k') :
    GrowsTree complete k ring k' :=
  (h.after (k := k) rfl).grows

theorem StepTree.of_tree {op : Op} (h : Tree k' ring)
    (hallocated : k'.allocated = k.allocated) (hawake : Awake k') :
    StepTree op k ring k' :=
  ⟨(KeepsTree.of_tree h hallocated).grows, hawake⟩

/-- A step keeps the ring and the tree in order. -/
theorem step_tree {op : Op} (h : Tree k ring) (hl : Lively k) (hawake : Awake k)
    (hspares : op.SparesZombies k) (hstep : Step k op k') :
    StepTree op k ring k' := by
  obtain ⟨henabled, fuel, reports, hrun⟩ := hstep
  have henter := fun n => AttrsOnly.enterSyscall k n
  have hquiet := fun n => Quiet.of_attrsOnly (henter n)
  have htree := fun n => h.of_attrsOnly (henter n)
  have hlively := fun n => ((hquiet n).keepsDead hl).lively
  have hawake₁ := fun n => hawake.of_attrsOnly (henter n)
  have hswitch : k.switching = false → ∀ n,
      (enterSyscall k n).switching = false := fun hs n =>
    (hquiet n).switching.trans hs
  have huser : k.currentTask.isKworker = false → ∀ n,
      (enterSyscall k n).currentTask.isKworker = false := fun hu n => by
    rw [Kernel.currentTask, (hquiet n).current, (hquiet n).kworker]
    exact hu
  cases op with
  | switchTask env =>
      replace hrun := reportsNone_ok hrun
      obtain ⟨h₁, halloc, hawake₁⟩ := h.switchTask hl hrun
      exact .of_tree h₁ halloc hawake₁
  | deliverSignals env =>
      replace hrun := reportsNone_ok hrun
      obtain ⟨h₁, halloc, hstate⟩ := h.deliverSignals hl (hl.current henabled.1) hrun
      exact .of_tree h₁ halloc fun hs => by
        rw [hstate hs]
        exact hawake henabled.1
  | runNext =>
      replace hrun := reportsNone_ok hrun
      obtain ⟨ring', h', hsub, hleak⟩ := h.runNext (hl.current henabled) hrun
      exact ⟨⟨ring', h', fun u hu => Or.inl (hsub u hu), fun _ => hleak⟩,
        .of_switching (runNext_switching hrun)⟩
  | checkBlockedTasks reduceTicks =>
      rw [Op.run, GlitchedOS.checkBlockedTasks, bind_ok_iff] at hrun
      obtain ⟨l, hl', hrun⟩ := hrun
      obtain rfl := h.order.ringFrom hl'
      have hq := checkBlockedLoop_life hrun
      obtain ⟨h₁, hrouses⟩ := h.checkBlockedLoop (fun _ ht => ht) hrun
      exact .of_tree h₁ hq.allocated
        (.of_rouses (hawake henabled) hrouses hq.current)
  | createKworker new regs =>
      replace hrun := reportsNone_ok hrun
      exact h.createKworker hl (hawake henabled.1) henabled.2 hrun
  | kworkerExit =>
      obtain ⟨-, rfl⟩ := Prod.mk.inj (Except.ok.inj hrun)
      refine .of_tree h.kworkerExit ?_ ?_
      · rw [GlitchedOS.kworkerExit]
        split <;> rfl
      · rw [GlitchedOS.kworkerExit]
        split
        · exact hawake
        · exact .of_switching rfl
  | sleep ms =>
      replace hrun := reportsNone_ok hrun
      obtain ⟨h₁, hawake₂⟩ := (htree 16).sleep
        ((hlively 16).current (hswitch henabled.1 16)) (hawake₁ 16) hrun
      exact ⟨h₁.of_enter, hawake₂⟩
  | fork new =>
      replace hrun := reportsNone_ok hrun
      obtain ⟨h₁, hs⟩ := (htree 11).fork (hlively 11) (huser henabled.2.1 11)
        ((hlively 11).current (hswitch henabled.1 11)) henabled.2.2 hrun
      exact ⟨h₁.of_enter, .of_switching hs⟩
  | spawn env pathRes args new =>
      replace hrun := reportsNone_ok hrun
      rw [sysSpawn] at hrun
      dsimp only at hrun
      split at hrun
      · obtain rfl := Except.ok.inj hrun
        have hattrs := (henter 54).trans (.enterSyscall _ pathRes)
        exact .of_tree (h.of_attrsOnly hattrs) rfl (hawake.of_attrsOnly hattrs)
      rename_i hpath
      rw [bind_ok_iff] at hrun
      obtain ⟨⟨res, k₂⟩, hspawn, hrun⟩ := hrun
      obtain ⟨h₂, hawake₂⟩ := (htree 54).spawn (hlively 54) (huser henabled.2.1 54)
        ((hlively 54).current (hswitch henabled.1 54))
        (hawake₁ 54 (hswitch henabled.1 54)) henabled.2.2 hspawn
      have hattrs : AttrsOnly k₂ k' := by
        rw [← Except.ok.inj hrun]
        split
        · exact .refl k₂
        · exact .enterSyscall k₂ res
      obtain ⟨ring', h', hring, hleak⟩ := h₂.congr (k := k) rfl hattrs
      exact ⟨⟨ring', h', hring, fun hc => hleak (hc (not_lt.mp hpath))⟩,
        hawake₂.of_attrsOnly hattrs⟩
  | execve env pathRes args new =>
      replace hrun := reportsNone_ok hrun
      rw [sysExecve] at hrun
      dsimp only at hrun
      split at hrun
      · obtain rfl := Except.ok.inj hrun
        have hattrs := (henter 12).trans (.enterSyscall _ pathRes)
        exact .of_tree (h.of_attrsOnly hattrs) rfl (hawake.of_attrsOnly hattrs)
      rename_i hpath
      rw [bind_ok_iff] at hrun
      obtain ⟨⟨res, k₂⟩, hexec, hrun⟩ := hrun
      obtain ⟨h₂, hawake₂⟩ := (htree 12).execve (hlively 12) (huser henabled.2.1 12)
        ((hlively 12).current (hswitch henabled.1 12))
        (hawake₁ 12 (hswitch henabled.1 12)) henabled.2.2 hexec
      have hattrs : AttrsOnly k₂ k' := by
        rw [← Except.ok.inj hrun]
        split
        · exact .refl k₂
        · exact .enterSyscall k₂ pathRes
      obtain ⟨ring', h', hring, hleak⟩ := h₂.congr (k := k) rfl hattrs
      exact ⟨⟨ring', h', hring, fun hc => hleak (hc (not_lt.mp hpath))⟩,
        hawake₂.of_attrsOnly hattrs⟩
  | exit env ret =>
      replace hrun := reportsNone_ok hrun
      obtain ⟨h₁, halloc, hs⟩ := (htree 0).exit
        ((htree 0).current_mem (hlively 0) (huser henabled.2 0))
        ((hlively 0).current (hswitch henabled.1 0)) hrun
      exact .of_tree h₁ halloc (.of_switching hs)
  | waitpid pid wstatus options =>
      rw [Op.run, sysWaitpid, bind_ok_iff] at hrun
      obtain ⟨⟨r, k₁⟩, hwait, hrun⟩ := hrun
      obtain ⟨h₁, hawake₂⟩ := (htree 53).waitpid
        ((htree 53).current_mem (hlively 53) (huser henabled.2 53))
        ((hlively 53).current (hswitch henabled.1 53))
        (hawake₁ 53 (hswitch henabled.1 53)) hwait
      have hattrs : AttrsOnly k₁ k' := by
        cases r with
        | returned ret report =>
            obtain ⟨-, rfl⟩ := Prod.mk.inj (Except.ok.inj hrun)
            exact .enterSyscall k₁ ret
        | blocked =>
            obtain ⟨-, rfl⟩ := Prod.mk.inj (Except.ok.inj hrun)
            exact .refl k₁
      exact ⟨h₁.grows.congr rfl hattrs, hawake₂.of_attrsOnly hattrs⟩
  | kill pid sig =>
      obtain ⟨-, res, k₁, rfl, hkill⟩ := kill_ok hrun
      have hleave := AttrsOnly.enterSyscall k₁ res
      obtain ⟨-, rfl⟩ | ⟨-, l, hl', rfl⟩ := hkill
      · exact .of_tree (h.of_attrsOnly hleave) rfl (hawake.of_attrsOnly hleave)
      · have hq := killLoop_life (hspares fuel l hl')
        have hs : Settles k (killLoop pid sig l k).2 none := .killLoop l k
        refine .of_tree ((h.of_settles hq hs).of_attrsOnly hleave) hq.allocated
          (Awake.of_attrsOnly ?_ hleave)
        exact .of_rouses (hawake henabled.1) hs.rouses hq.current
  | raise sig =>
      obtain ⟨-, rfl⟩ := Prod.mk.inj (Except.ok.inj hrun)
      have hq := raise_life (hl.current henabled.1) sig
      have hs : Settles k (GlitchedOS.raise k sig).2 none := by
        rw [GlitchedOS.raise]
        split
        · exact .refl k
        · exact .signalTask k k.current sig
      have hleave := AttrsOnly.enterSyscall (GlitchedOS.raise k sig).2
        (GlitchedOS.raise k sig).1
      refine .of_tree ((h.of_settles hq hs).of_attrsOnly hleave) hq.allocated
        (Awake.of_attrsOnly ?_ hleave)
      exact .of_rouses (hawake henabled.1) hs.rouses hq.current
  | userCode _ | sigaction _ _ | fdOpen _ _ | fdClose _ _ | fcntl _ _ _
  | dup2 _ _ _ | pipe _ | fdSocket _ _ | sigprocmask _ _ | setpgid _ _ | setsid
  | mount _ _ _ _ | unmount _ _ _ =>
      have hattrs := Op.plain_attrs rfl hrun
      exact .of_tree (h.of_attrsOnly hattrs) (Quiet.of_attrsOnly hattrs).allocated
        (hawake.of_attrsOnly hattrs)

/-- `exit` makes the running task a zombie, and no other. -/
theorem exit_state {env : CloseEnv} {fuel : Nat} {ret : Int}
    (h : exit env fuel k ret = .ok k') (u : Nat) :
    (k'.tasks u).state = if u = k.current then .zombie else (k.tasks u).state := by
  obtain ⟨k₁, -, hk₁, h⟩ := exit_ok h
  obtain ⟨parent, k₂, -, hrep, rfl⟩ := exitTask_ok h
  have hfiles := FilesOnly.releaseProcessFds env k
  rw [← hk₁] at hfiles
  have hstate := hfiles.proj Task.state (fun _ _ => rfl) u
  have hcurrent : k₁.current = k.current := by
    obtain ⟨_, _, _, _, _, rfl⟩ := hfiles
    rfl
  show (k₂.tasks u).state = _
  rw [(LinksOnly.reparent hrep).proj Task.state fun _ _ => rfl,
    Kernel.modifyTask_proj Task.state _ _ _ rfl, Kernel.modifyCurrent,
    Kernel.modifyTask_apply, hcurrent]
  split
  · rfl
  · exact hstate

theorem deliverSignals_init {env : CloseEnv} {fuel : Nat}
    (h : deliverSignals env fuel k = .ok k')
    (halive : ¬(k.tasks initTask).Dead) : ¬(k'.tasks initTask).Dead := by
  obtain ⟨p, f, g, b, h⟩ := deliverSignals_ok h
  have hstate : ((k.modifyCurrent (·.withSignals p f g b)).tasks initTask).state =
      (k.tasks initTask).state :=
    Kernel.modifyTask_proj Task.state k k.current initTask rfl
  rcases h with rfl | ⟨-, ret, hexit⟩
  · rwa [Task.Dead, hstate]
  · obtain ⟨-, hne, -⟩ := exit_ok hexit
    rw [Task.Dead, exit_state hexit, if_neg hne.symm, hstate]
    exact halive

theorem spawn_init {env : ExecEnv} {fuel new : Nat} {args : ExecArgs} {res : Int}
    (h : spawn env fuel k args new = .ok (res, k')) (hnew : initTask ≠ new)
    (halive : ¬(k.tasks initTask).Dead) : ¬(k'.tasks initTask).Dead := by
  obtain ⟨k₁, hadd, hways⟩ := spawn_ok h
  have hstate : (k₁.tasks initTask).state = (k.tasks initTask).state :=
    addTask_frame hadd Task.state (fun _ _ => rfl) (fun _ _ => rfl) hnew
  have halive₁ : ¬(k₁.tasks initTask).Dead := by
    rw [Task.Dead, hstate]
    exact halive
  rcases hways with ⟨-, rfl⟩ | ⟨-, rfl⟩
  · exact halive₁
  · intro hd
    dsimp only at hd
    rw [Kernel.modifyCurrent, Kernel.modifyTask_apply] at hd
    split at hd
    · rcases hd with hd | hd <;> cases hd
    · exact halive₁ hd

theorem execve_init {env : ExecEnv} {fuel new : Nat} {args : ExecArgs}
    {res : Int} (h : execve env fuel k args new = .ok (res, k'))
    (hnew : initTask ≠ new) (hne : initTask ≠ k.current)
    (halive : ¬(k.tasks initTask).Dead) : ¬(k'.tasks initTask).Dead := by
  obtain ⟨k₁, hadd, hways⟩ := execve_ok h
  have hstate : (k₁.tasks initTask).state = (k.tasks initTask).state :=
    addTask_frame hadd Task.state (fun _ _ => rfl) (fun _ _ => rfl) hnew
  rcases hways with ⟨-, rfl⟩ | ⟨-, l, k₂, k₃, -, hk₂, hk₃, hfinish⟩
  · rw [Task.Dead, hstate]
    exact halive
  · obtain ⟨k₄, hrep, rfl⟩ := execveFinish_ok hfinish
    have hfiles := FilesOnly.releaseProcessFds env.closeEnv k₂
    rw [← hk₃] at hfiles
    show ¬(k₄.tasks initTask).Dead
    rw [Task.Dead, (LinksOnly.reparent hrep).proj Task.state fun _ _ => rfl,
      hfiles.proj Task.state fun _ _ => rfl, hk₂,
      redirectWaiters_proj Task.state fun _ _ => rfl, Kernel.modifyTask_ne _ _ hne,
      hstate]
    exact halive

/-- A program is started by another task than `init_task`. -/
def Op.SparesInit (k : Kernel) : Op → Prop
  | .execve _ _ _ _ => k.current ≠ initTask
  | _ => True

theorem step_init {op : Op} (h : Tree k ring) (hl : Lively k)
    (hspares : op.SparesZombies k) (hinit : op.SparesInit k)
    (hstep : Step k op k') (halive : ¬(k.tasks initTask).Dead) :
    ¬(k'.tasks initTask).Dead := by
  obtain ⟨henabled, fuel, reports, hrun⟩ := hstep
  have hquiet : ∀ {k₁ : Kernel}, Quiet k k₁ → ¬(k₁.tasks initTask).Dead :=
    fun hq hd => halive ((hq.life _).dead.mp hd)
  have henter := fun n => hquiet (.of_attrsOnly (AttrsOnly.enterSyscall k n))
  have hsame : ∀ {k₁ k₂ : Kernel}, SameLife k₁ k₂ → ¬(k₁.tasks initTask).Dead →
      ¬(k₂.tasks initTask).Dead := fun hs hd hd' => hd ((hs _).mp hd')
  have hlively := fun n =>
    ((Quiet.of_attrsOnly (AttrsOnly.enterSyscall k n)).keepsDead hl).lively
  have hcurrent : k.switching = false → ∀ n,
      ¬(enterSyscall k n).currentTask.Dead := fun hs n =>
    (hlively n).current hs
  have hnew : ∀ {new : Nat}, new ∉ k.allocated → initTask ≠ new :=
    fun hout heq => hout (heq ▸ (h.order.allocated _ h.order.init_mem).1)
  cases op with
  | switchTask env =>
      replace hrun := reportsNone_ok hrun
      obtain ⟨next, rr, hloop, hrun⟩ := switchTask_ok hrun
      refine deliverSignals_init hrun fun hd => ?_
      rw [chooseTask, Task.Dead] at hd
      dsimp only at hd
      rw [Kernel.modifyTask_apply] at hd
      split at hd
      · rcases hd with hd | hd <;> cases hd
      · exact halive hd
  | deliverSignals env =>
      replace hrun := reportsNone_ok hrun
      exact deliverSignals_init hrun halive
  | runNext =>
      replace hrun := reportsNone_ok hrun
      exact hsame (runNext_sameLife hl (hl.current henabled) hrun).1 halive
  | checkBlockedTasks reduceTicks =>
      rw [Op.run, GlitchedOS.checkBlockedTasks, bind_ok_iff] at hrun
      obtain ⟨l, -, hrun⟩ := hrun
      exact hquiet (checkBlockedLoop_life hrun)
  | createKworker new regs =>
      replace hrun := reportsNone_ok hrun
      obtain ⟨cr3, phys, -, rfl⟩ := createKworker_ok hrun
      rw [Task.Dead, Kernel.modifyTask_proj Task.state _ _ _ rfl,
        allocTask_ne _ _ _ (hnew henabled.2)]
      exact halive
  | kworkerExit =>
      obtain ⟨-, rfl⟩ := Prod.mk.inj (Except.ok.inj hrun)
      rw [GlitchedOS.kworkerExit]
      split
      · exact halive
      rename_i hworker
      have hne : initTask ≠ k.current := by
        intro heq
        refine hworker ?_
        rw [Kernel.currentTask, ← heq, h.init]
        rfl
      dsimp only
      rw [Kernel.modifyCurrent, Kernel.modifyTask_ne _ _ hne]
      exact halive
  | sleep ms =>
      replace hrun := reportsNone_ok hrun
      exact hsame (sleep_life (hlively 16) (hcurrent henabled.1 16) hrun).2
        (henter 16)
  | fork new =>
      replace hrun := reportsNone_ok hrun
      obtain ⟨cr3, phys, k₂, -, hk₂, rfl⟩ := fork_ok hrun
      have hattrs := AttrsOnly.of_filesOnly (.addRefs
        (enterSyscall k 11).currentTask.fdTable (allocTask (enterSyscall k 11) new
          phys { (enterSyscall k 11).currentTask with
            state := .ready, cr3 := cr3 }))
      rw [← hk₂] at hattrs
      intro hd
      rw [Task.Dead, forkLink_state] at hd
      split at hd
      · rcases hd with hd | hd <;> cases hd
      · rw [hattrs.proj Task.state fun _ _ => rfl,
          allocTask_ne _ _ _ (hnew henabled.2.2)] at hd
        exact henter 11 hd
  | spawn env pathRes args new =>
      replace hrun := reportsNone_ok hrun
      rw [sysSpawn] at hrun
      dsimp only at hrun
      split at hrun
      · obtain rfl := Except.ok.inj hrun
        exact hquiet ((Quiet.of_attrsOnly (.enterSyscall k 54)).trans
          (.of_attrsOnly (.enterSyscall _ pathRes)))
      rw [bind_ok_iff] at hrun
      obtain ⟨⟨res, k₂⟩, hspawn, hrun⟩ := hrun
      have hspawned := spawn_init hspawn (hnew henabled.2.2) (henter 54)
      rw [← Except.ok.inj hrun]
      split
      · exact hspawned
      · exact hsame (.of_attrsOnly (.enterSyscall k₂ res)) hspawned
  | execve env pathRes args new =>
      replace hrun := reportsNone_ok hrun
      rw [sysExecve] at hrun
      dsimp only at hrun
      split at hrun
      · obtain rfl := Except.ok.inj hrun
        exact hquiet ((Quiet.of_attrsOnly (.enterSyscall k 12)).trans
          (.of_attrsOnly (.enterSyscall _ pathRes)))
      rw [bind_ok_iff] at hrun
      obtain ⟨⟨res, k₂⟩, hexec, hrun⟩ := hrun
      have hexeced := execve_init hexec (hnew henabled.2.2) (Ne.symm hinit)
        (henter 12)
      rw [← Except.ok.inj hrun]
      split
      · exact hexeced
      · exact hsame (.of_attrsOnly (.enterSyscall k₂ pathRes)) hexeced
  | exit env ret =>
      replace hrun := reportsNone_ok hrun
      obtain ⟨-, hne, -⟩ := exit_ok hrun
      rw [Task.Dead, exit_state hrun, if_neg hne.symm]
      exact henter 0
  | waitpid pid wstatus options =>
      exact hsame (sysWaitpid_life hl (hl.current henabled.1) hrun).2 halive
  | kill pid sig =>
      obtain ⟨-, res, k₁, rfl, ⟨-, rfl⟩ | ⟨-, l, hl', rfl⟩⟩ := kill_ok hrun
      · exact hquiet (.of_attrsOnly (.enterSyscall k _))
      · exact hquiet ((killLoop_life (hspares fuel l hl')).trans
          (.of_attrsOnly (.enterSyscall _ res)))
  | raise sig =>
      obtain ⟨-, rfl⟩ := Prod.mk.inj (Except.ok.inj hrun)
      exact hquiet ((raise_life (hl.current henabled.1) sig).trans
        (.of_attrsOnly (.enterSyscall _ _)))
  | userCode _ | sigaction _ _ | fdOpen _ _ | fdClose _ _ | fcntl _ _ _
  | dup2 _ _ _ | pipe _ | fdSocket _ _ | sigprocmask _ _ | setpgid _ _ | setsid
  | mount _ _ _ _ | unmount _ _ _ =>
      exact hquiet (.of_attrsOnly (Op.plain_attrs rfl hrun))

/-- What holds in every run that sends no stop signal to a zombie. -/
structure Orderly (k : Kernel) (ring : List Nat) : Prop where
  tree : Tree k ring
  lively : Lively k
  awake : Awake k

theorem bootKernel_orderly (info : BootInfo) :
    Orderly (bootKernel info) [initTask] := by
  have hinit : ∀ {t : Nat}, t ∈ [initTask] → t = initTask := List.mem_singleton.mp
  refine ⟨⟨⟨?_, ?_, ?_, ?_⟩, ⟨?_, ?_⟩, ⟨?_, ?_, rfl⟩, ?_, rfl, rfl⟩,
    bootKernel_lively info, ?_⟩
  · exact ⟨rfl, rfl⟩
  · intro t ht
    rw [hinit ht]
    exact ⟨Finset.mem_insert_of_mem (Finset.mem_singleton_self _), by decide⟩
  · exact List.mem_singleton_self _
  · exact Or.inl (List.mem_singleton_self _)
  · exact fun c hc _ hne => absurd (hinit hc) hne
  · intro p hp _
    obtain rfl := hinit hp
    refine ⟨[], none, rfl, List.nodup_nil, fun c => ?_, fun _ => rfl⟩
    exact iff_of_false List.not_mem_nil fun hc => hc.ne_init (hinit hc.mem)
  · intro t ht u hu _ _ _
    rw [hinit ht, hinit hu]
  · intro t ht
    rw [hinit ht]
    exact ⟨show (0 : Int) < 1 by decide, le_refl _⟩
  · intro t ht c hw
    rw [hinit ht] at hw
    cases hw.state
  · intro _ hb
    cases hb

theorem Orderly.step (h : Orderly k ring) {op : Op}
    (hstep : SparingStep k op k') : ∃ ring', Orderly k' ring' ∧
      OldOrNew k ring ring' ∧ (op.LeaksNoTask k → ∀ u, Leaked k' ring' u → Leaked k ring u) := by
  obtain ⟨⟨ring', htree, hring, hleak⟩, hawake⟩ :=
    step_tree h.tree h.lively h.awake hstep.1 hstep.2
  exact ⟨ring', ⟨htree, (step_life h.lively hstep.1 hstep.2).lively, hawake⟩,
    hring, hleak⟩

/-- The task ring and the process tree, as pointers that are followed. -/
structure TasksConsistent (k : Kernel) (ring : List Nat) : Prop where
  chain : Chain (ringNext k) (some initTask) ring
  once : ring.Nodup
  all : ∀ t, t ∈ ring ↔ t ∈ k.allocated ∧ t ≠ idleTask
  rr : k.rr ∈ ring
  child : ∀ t ∈ ring, (k.tasks t).isKworker = false → t ≠ initTask →
    ∃ p ∈ ring, (k.tasks t).parent = some p ∧ ∃ kids,
      Chain (fun c => (k.tasks c).nextSibling) (k.tasks p).child kids ∧
      kids.count t = 1
  pids : ∀ t ∈ k.allocated, ∀ u ∈ k.allocated, (k.tasks t).state ≠ .deleted →
    (k.tasks u).state ≠ .deleted → (k.tasks t).pid = (k.tasks u).pid → t = u
  waits : ∀ t ∈ ring, ∀ c, (k.tasks t).state = .blocked →
    (k.tasks t).blockReason = .waitpid → (k.tasks t).blockedProcess = some c →
    c ∈ ring

/-- A step that neither leaves a task out of reach nor replaces `init_task`. -/
def TreeStep (k : Kernel) (op : Op) (k' : Kernel) : Prop :=
  op.LeaksNoTask k ∧ op.SparesInit k ∧ SparingStep k op k'

theorem Orderly.consistent (h : Orderly k ring) (hleak : ∀ u, ¬Leaked k ring u)
    (hinit : ¬(k.tasks initTask).Dead) : TasksConsistent k ring := by
  have hall : ∀ t, t ∈ ring ↔ t ∈ k.allocated ∧ t ≠ idleTask := by
    intro t
    refine ⟨h.tree.order.allocated t, fun ht => ?_⟩
    by_contra hout
    exact hleak t ⟨ht.1, ht.2, hout⟩
  have hpid : ∀ t ∈ k.allocated, t ∈ ring ∧ 0 < (k.tasks t).pid ∨
      t = idleTask ∧ (k.tasks t).pid = 0 := by
    intro t ht
    by_cases heq : t = idleTask
    · exact Or.inr ⟨heq, heq ▸ h.tree.pids.idle⟩
    · have hmem := (hall t).mpr ⟨ht, heq⟩
      exact Or.inl ⟨hmem, (h.tree.pids.bound t hmem).1⟩
  refine ⟨h.tree.order.chain, h.tree.order.chain.nodup, hall, h.tree.order.rr,
    fun t ht huser hne => ?_, fun t ht u hu htd hud heq => ?_,
    fun t ht c hb hr hc => (h.tree.waiters t ht c ⟨hb, hr, hc⟩).1.mem⟩
  · obtain ⟨p, hp, hparent, hpar⟩ := h.tree.family.parent t ht huser hne
    have halive : ¬(k.tasks p).Dead := hpar.alive.elim id fun heq => heq ▸ hinit
    obtain ⟨kids, hkids⟩ := h.tree.family.children hp halive
    refine ⟨p, hp, hparent, kids, hkids.segment.chain, ?_⟩
    exact List.count_eq_one_of_mem hkids.nodup
      ((hkids.mem t).mpr ⟨ht, huser, hne, hparent⟩)
  · rcases hpid t ht with ⟨htr, htp⟩ | ⟨rfl, htp⟩
    · rcases hpid u hu with ⟨hur, -⟩ | ⟨rfl, hup⟩
      · exact h.tree.pids.distinct t htr u hur htd hud heq
      · omega
    · rcases hpid u hu with ⟨-, hup⟩ | ⟨rfl, -⟩
      · omega
      · rfl

/-- In a run in which every program that is accepted starts, no kernel worker is
made while the idle task runs and `init_task` is not replaced, the ring holds
every task once and the tree is consistent. -/
theorem run_tasks_consistent (info : BootInfo) {ops : List Op} {k : Kernel}
    (hrun : Run TreeStep (bootKernel info) ops k) :
    ∃ ring, TasksConsistent k ring := by
  have hboot : ∀ u, ¬Leaked (bootKernel info) [initTask] u := by
    rintro u ⟨hmem, hidle, hout⟩
    rw [bootKernel, Finset.mem_insert, Finset.mem_singleton] at hmem
    exact hmem.elim hidle fun heq => hout (List.mem_singleton.mpr heq)
  have hinv := hrun.invariant (fun k => ∃ ring, Orderly k ring ∧
      (∀ u, ¬Leaked k ring u) ∧ ¬(k.tasks initTask).Dead)
    (fun k op k' hstep hk => by
      obtain ⟨ring, h, hleak, hinit⟩ := hk
      obtain ⟨ring', h', -, hleak'⟩ := h.step hstep.2.2
      refine ⟨ring', h', fun u hu => hleak u (hleak' hstep.1 u hu), ?_⟩
      exact step_init h.tree h.lively hstep.2.2.1 hstep.2.1 hstep.2.2.2 hinit)
    ⟨[initTask], bootKernel_orderly info, hboot,
      Task.not_dead_of_state (s := .ready) rfl (by decide)⟩
  obtain ⟨ring, h, hleak, hinit⟩ := hinv
  exact ⟨ring, h.consistent hleak hinit⟩

def childReaped : List Op := childExits ++ [.waitpid 2 none 0#32]

set_option maxRecDepth 2000 in
theorem run_tasks_consistent_reaped : ∃ k,
    Run TreeStep (bootKernel smallBoot) childReaped k ∧
      ∃ ring, TasksConsistent k ring := by
  have hruns : ∃ k ∈ runOps 8 (fun _ => true) childReaped (bootKernel smallBoot),
      (k.tasks 2).state = .deleted := by
    decide +kernel
  obtain ⟨k, hk, -⟩ := hruns
  have hrun : Run TreeStep (bootKernel smallBoot) childReaped k := by
    refine (runOps_run hk).mono_of_mem fun k op k' hop hstep => ?_
    simp only [childReaped, childExits, List.cons_append, List.nil_append,
      List.mem_cons, List.not_mem_nil, or_false] at hop
    rcases hop with rfl | rfl | rfl | rfl | rfl
    all_goals exact ⟨trivial, trivial, trivial, hstep.2⟩
  exact ⟨k, hrun, run_tasks_consistent smallBoot hrun⟩

/-- A path that `stat` does not find. -/
def missing : ExecEnv where
  closeEnv := closes
  stat := eNoent
  type := 0
  lookup := eNoent
  compatible := false
  loadElf := fun phys _ => .ok (none, phys)
  buildStack := fun phys _ => .ok (0#64, phys)

def noArgs : ExecArgs := ⟨none, none, none⟩

set_option maxRecDepth 2000 in
/-- The first program starts one that does not exist: the new task stays
allocated and is in no list. -/
theorem failed_spawn_leaks_task : ∃ k,
    Run Step (bootKernel smallBoot) [.spawn missing 0 noArgs 2] k ∧
      ¬∃ ring, TasksConsistent k ring := by
  have hruns : ∃ k ∈ runOps 8 (fun _ => true) [.spawn missing 0 noArgs 2]
      (bootKernel smallBoot), 2 ∈ k.allocated ∧ (k.tasks 1).next = 1 := by
    decide +kernel
  obtain ⟨k, hk, hmem, hnext⟩ := hruns
  refine ⟨k, (runOps_run hk).mono fun _ _ _ hstep => hstep.2, ?_⟩
  rintro ⟨ring, h⟩
  have hsingle : Chain (ringNext k) (some initTask) [initTask] :=
    ⟨rfl, if_pos hnext⟩
  obtain rfl := h.chain.unique hsingle
  have htwo := (h.all 2).mpr ⟨hmem, by decide⟩
  cases List.mem_singleton.mp htwo

end GlitchedOS
