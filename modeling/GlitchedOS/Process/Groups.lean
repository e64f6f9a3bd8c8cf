/-
Sessions and process groups.  A group is made by the task whose process number
names it, leaders never leave their group, and new process numbers are larger
than all groups, so a group lies in one session for as long as it has members.
A task that `add_task` has left out of reach still counts as a member.
-/
import GlitchedOS.Process.SchedOnly
import GlitchedOS.Process.TreeRuns

namespace GlitchedOS

variable {k k' k'' : Kernel} {ring ring' : List Nat}
variable {fuel : Nat} {r : Int × Kernel} {env : CloseEnv} {f : Task → Task}

/-- The process number, the group and the session of a task. -/
def Task.ids (x : Task) : Int × Int × Int := (x.pid, x.pgid, x.sid)

/-- No task changes its process number, its group or its session. -/
def IdsKept (k k' : Kernel) : Prop := ∀ t, (k'.tasks t).ids = (k.tasks t).ids

namespace IdsKept

theorem refl (k : Kernel) : IdsKept k k := fun _ => rfl

theorem trans (h : IdsKept k k') (h' : IdsKept k' k'') : IdsKept k k'' :=
  fun t => (h' t).trans (h t)

theorem modifyTask (k : Kernel) (t : Nat) (hf : (f (k.tasks t)).ids = (k.tasks t).ids) :
    IdsKept k (k.modifyTask t f) :=
  fun u => Kernel.modifyTask_proj Task.ids k t u hf

theorem of_schedOnly (h : SchedOnly k k') : IdsKept k k' := fun t =>
  congrArg (fun b => (b.1, b.2.1, b.2.2.1)) (h.body t)

theorem of_filesOnly (h : FilesOnly k k') : IdsKept k k' :=
  h.proj Task.ids fun _ _ => rfl

theorem of_linksOnly (h : LinksOnly k k') : IdsKept k k' :=
  h.proj Task.ids fun _ _ => rfl

end IdsKept

/-! ### Steps that keep the groups -/

/-- No task changes its group or comes back, and none is new. -/
structure Steady (k k' : Kernel) : Prop where
  ids : IdsKept k k'
  deleted : ∀ t, (k.tasks t).state = .deleted → (k'.tasks t).state = .deleted
  allocated : k'.allocated ⊆ k.allocated
  lastPid : k'.lastPid = k.lastPid

namespace Steady

theorem of_quiet (hq : Quiet k k') (hids : IdsKept k k') : Steady k k' where
  ids := hids
  deleted := fun t => (hq.life t).deleted
  allocated := hq.allocated.le
  lastPid := hq.lastPid

theorem trans (h : Steady k k') (h' : Steady k' k'') : Steady k k'' where
  ids := h.ids.trans h'.ids
  deleted := fun t hd => h'.deleted t (h.deleted t hd)
  allocated := h'.allocated.trans h.allocated
  lastPid := h'.lastPid.trans h.lastPid

theorem modifyTask (k : Kernel) (t : Nat) (hf : (f (k.tasks t)).ids = (k.tasks t).ids)
    (hdeleted : (k.tasks t).state = .deleted →
      (f (k.tasks t)).state = .deleted) : Steady k (k.modifyTask t f) where
  ids := .modifyTask k t hf
  deleted := fun u hd => by
    rw [Kernel.modifyTask_apply]
    split
    · rename_i heq
      subst heq
      exact hdeleted hd
    · exact hd
  allocated := Finset.Subset.refl _
  lastPid := rfl

theorem enterSyscall (k : Kernel) (number : Int) :
    Steady k (GlitchedOS.enterSyscall k number) :=
  .of_quiet (.of_attrsOnly (.enterSyscall k number))
    (.of_schedOnly (.enterSyscall k number))

theorem of_filesOnly (h : FilesOnly k k') : Steady k k' :=
  .of_quiet (.of_attrsOnly (.of_filesOnly h)) (.of_filesOnly h)

theorem of_linksOnly (h : LinksOnly k k') : Steady k k' := by
  have hids := IdsKept.of_linksOnly h
  have hstate := h.proj Task.state fun _ _ => rfl
  refine ⟨hids, fun t hd => (hstate t).trans hd, ?_, ?_⟩
  · obtain ⟨_, rfl⟩ := h
    exact Finset.Subset.refl _
  · obtain ⟨_, rfl⟩ := h
    rfl

theorem runNext (h : GlitchedOS.runNext fuel k = .ok k') :
    Steady k k' := by
  rw [GlitchedOS.runNext, bind_ok_iff] at h
  obtain ⟨k₁, hgc, h⟩ := h
  have hready : Steady k (k.modifyCurrent fun x =>
      if x.state = .running then { x with state := .ready } else x) := by
    refine modifyTask k k.current ?_ fun hd => ?_
    · split <;> rfl
    · rw [if_neg]
      · exact hd
      · rw [hd]
        decide
  have hcollected := gcLoop_collected hgc
  have hfreed : Steady _ k₁ :=
    ⟨hcollected.links Task.ids fun _ _ => rfl, fun t hd =>
      (hcollected.links Task.state (fun _ _ => rfl) t).trans hd,
      hcollected.allocated, hcollected.lastPid⟩
  obtain rfl := Except.ok.inj h
  have hdone := hready.trans hfreed
  exact ⟨hdone.ids, hdone.deleted, hdone.allocated, hdone.lastPid⟩

theorem exit {ret : Int}
    (halive : ¬k.currentTask.Dead) (h : GlitchedOS.exit env fuel k ret = .ok k') :
    Steady k k' := by
  have hstate := exit_state h
  obtain ⟨k₁, -, hk₁, h⟩ := exit_ok h
  obtain ⟨parent, k₂, -, hrep, rfl⟩ := exitTask_ok h
  have hfiles : Steady k k₁ := by
    rw [hk₁]
    exact .of_filesOnly (.releaseProcessFds env k)
  have hlinks := Steady.of_linksOnly (LinksOnly.reparent hrep)
  have hzombie : IdsKept k₁ (k₁.modifyCurrent fun x =>
      { x with state := .zombie, returnCode := ret }) :=
    .modifyTask k₁ k₁.current rfl
  have hpending : IdsKept (k₁.modifyCurrent fun x =>
      { x with state := .zombie, returnCode := ret }) _ :=
    .modifyTask _ parent (f := fun x =>
      { x with pendingSignals := x.pendingSignals ||| sigBit sigChld }) rfl
  refine ⟨?_, fun t hd => ?_, ?_, ?_⟩
  · exact hfiles.ids.trans (hzombie.trans (hpending.trans hlinks.ids))
  · rw [hstate, if_neg]
    · exact hd
    · rintro rfl
      exact halive (Or.inr hd)
  · exact hlinks.allocated.trans hfiles.allocated
  · exact hlinks.lastPid.trans hfiles.lastPid

theorem deliverSignals (halive : ¬k.currentTask.Dead)
    (h : GlitchedOS.deliverSignals env fuel k = .ok k') : Steady k k' := by
  obtain ⟨p, f, g, b, h⟩ := deliverSignals_ok h
  have hsig : Steady k (k.modifyCurrent (·.withSignals p f g b)) :=
    .modifyTask k k.current rfl id
  rcases h with rfl | ⟨-, ret, hexit⟩
  · exact hsig
  · refine hsig.trans (exit ?_ hexit)
    rw [Task.Dead, show (k.modifyCurrent (·.withSignals p f g b)).currentTask.state =
      k.currentTask.state from
      Kernel.modifyTask_proj Task.state k k.current k.current rfl]
    exact halive

theorem switchTask (hl : Lively k)
    (h : GlitchedOS.switchTask env fuel k = .ok k') : Steady k k' := by
  obtain ⟨next, rr, hloop, h⟩ := switchTask_ok h
  have halive : ¬(k.tasks (next.getD idleTask)).Dead := by
    cases next with
    | none => exact hl.idle
    | some t => exact Task.not_dead_of_state (nextLoop_ready hloop) (by decide)
  generalize next.getD idleTask = t at halive h
  have hrunning : Steady k (k.modifyTask t fun x => { x with state := .running }) :=
    .modifyTask k t rfl fun hd => absurd (Or.inr hd) halive
  have hchosen : Steady k (chooseTask k t rr) :=
    ⟨hrunning.ids, hrunning.deleted, hrunning.allocated, hrunning.lastPid⟩
  refine hchosen.trans (deliverSignals ?_ h)
  refine Task.not_dead_of_state (s := .running) ?_ (by decide)
  rw [chooseTask, Kernel.currentTask]
  simp

theorem block (halive : ¬k.currentTask.Dead)
    (hf : (f k.currentTask).ids = k.currentTask.ids)
    (h : GlitchedOS.runNext fuel (k.modifyCurrent f) = .ok k') : Steady k k' :=
  .trans (.modifyTask k k.current hf fun hd => absurd (Or.inr hd) halive) (runNext h)

theorem sigprocmask (k : Kernel) (how : Int) (set : BitVec 32) :
    Steady k (GlitchedOS.sigprocmask k how set).2 := by
  have hinstall : ∀ mask : BitVec 32, Steady k (k.modifyCurrent fun x =>
      { x with signalMask := mask }) := fun _ => .modifyTask k k.current rfl id
  rw [GlitchedOS.sigprocmask]
  dsimp only
  split
  · exact hinstall _
  split
  · exact hinstall _
  split
  · exact hinstall _
  · exact .of_quiet (.refl k) (.refl k)

end Steady

/-- The operations that make tasks or change groups. -/
def Op.regroups : Op → Bool
  | .fork _ | .spawn _ _ _ _ | .execve _ _ _ _ | .createKworker _ _
  | .setpgid _ _ | .setsid => true
  | _ => false

theorem step_steady {op : Op} (hl : Lively k) (hspares : op.SparesZombies k)
    (hop : op.regroups = false) (hstep : Step k op k') : Steady k k' := by
  obtain ⟨henabled, fuel, reports, hrun⟩ := hstep
  have hquiet := fun n => Quiet.of_attrsOnly (AttrsOnly.enterSyscall k n)
  have hcurrent : k.switching = false → ∀ n,
      ¬(enterSyscall k n).currentTask.Dead := fun hs n =>
    ((hquiet n).keepsDead hl).lively.current hs
  cases op with
  | switchTask env =>
      replace hrun := reportsNone_ok hrun
      exact .switchTask hl hrun
  | deliverSignals env =>
      replace hrun := reportsNone_ok hrun
      exact .deliverSignals (hl.current henabled.1) hrun
  | runNext =>
      replace hrun := reportsNone_ok hrun
      exact .runNext hrun
  | checkBlockedTasks reduceTicks =>
      rw [Op.run, GlitchedOS.checkBlockedTasks, bind_ok_iff] at hrun
      obtain ⟨l, -, hrun⟩ := hrun
      exact .of_quiet (checkBlockedLoop_life hrun)
        (.of_schedOnly (.of_waitOnly (.checkBlockedLoop hrun)))
  | kworkerExit =>
      obtain ⟨-, rfl⟩ := Prod.mk.inj (Except.ok.inj hrun)
      rw [GlitchedOS.kworkerExit]
      split
      · exact .of_quiet (.refl k) (.refl k)
      · have hdeleted : Steady k (k.modifyCurrent fun x =>
            { x with state := .deleted }) := .modifyTask k k.current rfl fun _ => rfl
        exact ⟨hdeleted.ids, hdeleted.deleted, hdeleted.allocated,
          hdeleted.lastPid⟩
  | sleep ms =>
      replace hrun := reportsNone_ok hrun
      refine .trans (.enterSyscall k 16) ?_
      rw [GlitchedOS.sleep] at hrun
      split at hrun
      · obtain rfl := Except.ok.inj hrun
        exact .enterSyscall (enterSyscall k 16) 0
      · exact .block (hcurrent henabled.1 16) rfl hrun
  | exit env ret =>
      replace hrun := reportsNone_ok hrun
      exact .trans (.enterSyscall k 0) (.exit (hcurrent henabled.1 0) hrun)
  | waitpid pid wstatus options =>
      rw [Op.run, sysWaitpid, bind_ok_iff] at hrun
      obtain ⟨⟨r, k₁⟩, hwait, hrun⟩ := hrun
      refine .trans (.enterSyscall k 53) ?_
      rcases waitpid_ok hwait with ⟨ret, -, rfl, rfl⟩ |
          ⟨child, event, -, hevent, rfl, rfl⟩ | ⟨rfl, target, -, hnext⟩
      · obtain ⟨-, rfl⟩ := Prod.mk.inj (Except.ok.inj hrun)
        exact .enterSyscall _ _
      · obtain ⟨-, rfl⟩ := Prod.mk.inj (Except.ok.inj hrun)
        exact .trans (.of_quiet (report_life hevent _ _ _)
          (.of_schedOnly (.of_waitOnly ((WaitOnly.storeStatus _ _ _ _).trans
            (.consumeEvent _ _ _)))))
          (.enterSyscall _ _)
      · obtain ⟨-, rfl⟩ := Prod.mk.inj (Except.ok.inj hrun)
        exact .block (hcurrent henabled.1 53) rfl hnext
  | kill pid sig =>
      obtain ⟨-, res, k₁, rfl, hkill⟩ := kill_ok hrun
      refine .trans ?_ (.enterSyscall k₁ res)
      obtain ⟨-, rfl⟩ | ⟨-, l, hl', rfl⟩ := hkill
      · exact .of_quiet (.refl k) (.refl k)
      · exact .of_quiet (killLoop_life (hspares fuel l hl')) (.of_schedOnly (.killLoop l k))
  | raise sig =>
      obtain ⟨-, rfl⟩ := Prod.mk.inj (Except.ok.inj hrun)
      refine .trans (.of_quiet (raise_life (hl.current henabled.1) sig) ?_)
        (.enterSyscall _ _)
      rw [GlitchedOS.raise]
      split
      · exact .refl k
      · exact .of_schedOnly (.signalTask k k.current sig)
  | userCode regs =>
      obtain ⟨-, rfl⟩ := Prod.mk.inj (Except.ok.inj hrun)
      exact .modifyTask k k.current rfl id
  | sigaction sig handler =>
      obtain ⟨-, rfl⟩ := Prod.mk.inj (Except.ok.inj hrun)
      refine .trans ?_ (.enterSyscall _ _)
      rw [GlitchedOS.sigaction]
      split
      · exact .of_quiet (.refl k) (.refl k)
      split
      · exact .of_quiet (.refl k) (.refl k)
      · exact .modifyTask k k.current (f := fun x =>
          { x with
            signalHandlers := Function.update x.signalHandlers sig handler }) rfl id
  | sigprocmask how set =>
      obtain ⟨-, rfl⟩ := Prod.mk.inj (Except.ok.inj hrun)
      exact .trans (.sigprocmask k how set) (.enterSyscall _ _)
  | fdOpen _ _ | fdClose _ _ | fcntl _ _ _ | dup2 _ _ _ | pipe _ | fdSocket _ _
  | mount _ _ _ _ | unmount _ _ _ =>
      obtain ⟨r, hfiles, rfl⟩ := Op.files_ok rfl hrun
      exact .trans (.of_filesOnly hfiles) (.enterSyscall _ _)
  | fork _ | spawn _ _ _ _ | execve _ _ _ _ | createKworker _ _ | setpgid _ _
  | setsid => cases hop

/-! ### The invariant -/

/-- A task that counts as a member of its group: any that is not deleted, in the
ring or not, and `init_task`, which kernel workers are copied from. -/
def Counts (k : Kernel) (t : Nat) : Prop :=
  t ∈ k.allocated ∧ ((k.tasks t).state ≠ .deleted ∨ t = initTask)

/-- A task of the ring that is not deleted. -/
def InService (k : Kernel) (ring : List Nat) (u : Nat) : Prop :=
  u ∈ ring ∧ (k.tasks u).state ≠ .deleted

/-- Groups lie in one session, and the task a group is named after is in it. -/
structure Groups (k : Kernel) (ring : List Nat) : Prop where
  bound : ∀ t, Counts k t → (k.tasks t).pgid ≤ k.lastPid
  positive : ∀ t, Counts k t → t ≠ idleTask → 0 < (k.tasks t).pgid
  session : ∀ t u, Counts k t → Counts k u →
    (k.tasks t).pgid = (k.tasks u).pgid → (k.tasks t).sid = (k.tasks u).sid
  leader : ∀ t u, Counts k t → InService k ring u →
    (k.tasks u).pid = (k.tasks t).pgid → (k.tasks u).pgid = (k.tasks t).pgid
  idle : (k.tasks idleTask).pgid = 0

theorem Ring.counts (h : Ring k ring) {t : Nat} (ht : InService k ring t) :
    Counts k t ∧ t ≠ idleTask :=
  ⟨⟨(h.allocated t ht.1).1, Or.inl ht.2⟩, (h.allocated t ht.1).2⟩

/-- Every task has the group and the session some task had before. -/
theorem Groups.of_source (h : Groups k ring) (source : Nat → Nat)
    (hcounts : ∀ t, Counts k' t → Counts k (source t))
    (hpgid : ∀ t, Counts k' t →
      (k'.tasks t).pgid = (k.tasks (source t)).pgid)
    (hsid : ∀ t, Counts k' t → (k'.tasks t).sid = (k.tasks (source t)).sid)
    (hsource : ∀ t, Counts k' t → source t = idleTask → t = idleTask)
    (hidle : (k'.tasks idleTask).pgid = 0) (hlast : k.lastPid ≤ k'.lastPid)
    (hleader : ∀ t u, Counts k t → InService k' ring' u →
      (k'.tasks u).pid = (k.tasks t).pgid →
      (k'.tasks u).pgid = (k.tasks t).pgid) : Groups k' ring' where
  bound := fun t ht => by
    rw [hpgid t ht]
    exact (h.bound _ (hcounts t ht)).trans hlast
  positive := fun t ht hne => by
    rw [hpgid t ht]
    exact h.positive _ (hcounts t ht) fun heq => hne (hsource t ht heq)
  session := fun t u ht hu heq => by
    rw [hpgid t ht, hpgid u hu] at heq
    rw [hsid t ht, hsid u hu]
    exact h.session _ _ (hcounts t ht) (hcounts u hu) heq
  leader := fun t u ht hu heq => by
    rw [hpgid t ht] at heq ⊢
    exact hleader _ u (hcounts t ht) hu heq
  idle := hidle

namespace Steady

theorem pid (h : Steady k k') (t : Nat) : (k'.tasks t).pid = (k.tasks t).pid :=
  congrArg Prod.fst (h.ids t)

theorem pgid (h : Steady k k') (t : Nat) : (k'.tasks t).pgid = (k.tasks t).pgid :=
  congrArg (fun i => i.2.1) (h.ids t)

theorem sid (h : Steady k k') (t : Nat) : (k'.tasks t).sid = (k.tasks t).sid :=
  congrArg (fun i => i.2.2) (h.ids t)

theorem counts (h : Steady k k') {t : Nat} (ht : Counts k' t) : Counts k t :=
  ⟨h.allocated ht.1, ht.2.imp_left fun hne hd => hne (h.deleted t hd)⟩

theorem inService (h : Steady k k') {u : Nat} (hu : InService k' ring' u)
    (hring : ∀ u ∈ ring', u ∈ ring) : InService k ring u :=
  ⟨hring u hu.1, fun hd => hu.2 (h.deleted u hd)⟩

end Steady

theorem Groups.of_steady (h : Groups k ring) (hs : Steady k k')
    (hring : ∀ u ∈ ring', u ∈ ring) : Groups k' ring' := by
  refine h.of_source id (fun t => hs.counts) (fun t _ => hs.pgid t)
    (fun t _ => hs.sid t) (fun _ _ => id) ?_ hs.lastPid.ge fun t u ht hu heq => ?_
  · rw [hs.pgid]
    exact h.idle
  · rw [hs.pid] at heq
    rw [hs.pgid]
    exact h.leader t u ht (hs.inService hu hring) heq

/-- One task gets another group or session. -/
structure Moved (k : Kernel) (c : Nat) (pgid sid : Int) (k' : Kernel) : Prop where
  self : k'.tasks c = { k.tasks c with pgid := pgid, sid := sid }
  other : ∀ t, t ≠ c → k'.tasks t = k.tasks t
  allocated : k'.allocated = k.allocated
  lastPid : k'.lastPid = k.lastPid

theorem Moved.proj {c : Nat} {pgid sid : Int} (h : Moved k c pgid sid k')
    {α : Type} (π : Task → α)
    (hπ : ∀ x p s, π { x with pgid := p, sid := s } = π x) (t : Nat) :
    π (k'.tasks t) = π (k.tasks t) := by
  by_cases ht : t = c
  · rw [ht, h.self]
    exact hπ _ _ _
  · rw [h.other t ht]

/-- The task `c` may make the group named after it: no other task is in the group
unless `c` is, and no other task of the ring has its process number. -/
structure MayLead (k : Kernel) (ring : List Nat) (c : Nat) : Prop where
  pid : 0 < (k.tasks c).pid ∧ (k.tasks c).pid ≤ k.lastPid
  others : ∀ t, Counts k t → t ≠ c → (k.tasks t).pgid = (k.tasks c).pid →
    (k.tasks c).pgid = (k.tasks c).pid
  unique : ∀ u, InService k ring u → (k.tasks u).pid = (k.tasks c).pid → u = c

/-- The task `c` joins a group of its session, or makes its own. -/
theorem Groups.move (h : Groups k ring) {c : Nat} {pgid sid : Int}
    (hmoved : Moved k c pgid sid k') (hidle : c ≠ idleTask)
    (hkeep : (k.tasks c).pgid = (k.tasks c).pid → pgid = (k.tasks c).pgid)
    (hgroup : (∃ i, Counts k i ∧ i ≠ idleTask ∧ (k.tasks i).pgid = pgid ∧
        (k.tasks i).sid = sid) ∨
      (pgid = (k.tasks c).pid ∧ MayLead k ring c ∧
        (k.tasks c).pgid ≠ (k.tasks c).pid)) : Groups k' ring := by
  have hstate := hmoved.proj Task.state fun _ _ _ => rfl
  have hpid := hmoved.proj Task.pid fun _ _ _ => rfl
  have hcounts : ∀ t, Counts k' t → Counts k t := fun t ht =>
    ⟨hmoved.allocated ▸ ht.1, ht.2.imp_left fun hne hd => hne ((hstate t).trans hd)⟩
  have hservice : ∀ u, InService k' ring u → InService k ring u := fun u hu =>
    ⟨hu.1, fun hd => hu.2 ((hstate u).trans hd)⟩
  have hself : (k'.tasks c).pgid = pgid ∧ (k'.tasks c).sid = sid := by
    rw [hmoved.self]
    exact ⟨rfl, rfl⟩
  -- the other members of the group `c` is in afterwards
  have hmember : ∀ t, Counts k t → t ≠ c → (k.tasks t).pgid = pgid →
      (k.tasks t).sid = sid := by
    intro t ht htc heq
    rcases hgroup with ⟨i, hi, -, hip, his⟩ | ⟨hp, hlead, hnot⟩
    · exact (h.session t i ht hi (heq.trans hip.symm)).trans his
    · exact absurd (hlead.others t ht htc (heq.trans hp)) hnot
  refine ⟨fun t ht => ?_, fun t ht hne => ?_, fun t u ht hu heq => ?_,
    fun t u ht hu heq => ?_, ?_⟩
  · by_cases htc : t = c
    · rw [htc, hself.1, hmoved.lastPid]
      rcases hgroup with ⟨i, hi, -, hip, -⟩ | ⟨hp, hlead, -⟩
      · exact hip ▸ h.bound i hi
      · exact hp ▸ hlead.pid.2
    · rw [hmoved.other t htc, hmoved.lastPid]
      exact h.bound t (hcounts t ht)
  · by_cases htc : t = c
    · rw [htc, hself.1]
      rcases hgroup with ⟨i, hi, hiidle, hip, -⟩ | ⟨hp, hlead, -⟩
      · exact hip ▸ h.positive i hi hiidle
      · exact hp ▸ hlead.pid.1
    · rw [hmoved.other t htc]
      exact h.positive t (hcounts t ht) hne
  · by_cases htc : t = c
    · by_cases huc : u = c
      · rw [htc, huc]
      · rw [htc, hmoved.other u huc, hself.1] at heq
        rw [htc, hmoved.other u huc, hself.2]
        exact (hmember u (hcounts u hu) huc heq.symm).symm
    · by_cases huc : u = c
      · rw [huc, hmoved.other t htc, hself.1] at heq
        rw [huc, hmoved.other t htc, hself.2]
        exact hmember t (hcounts t ht) htc heq
      · rw [hmoved.other t htc, hmoved.other u huc] at heq ⊢
        exact h.session t u (hcounts t ht) (hcounts u hu) heq
  · rw [hpid] at heq
    have hu₀ := hservice u hu
    by_cases htc : t = c
    · rw [htc, hself.1] at heq ⊢
      by_cases huc : u = c
      · rw [huc, hself.1]
      · rw [hmoved.other u huc]
        rcases hgroup with ⟨i, hi, -, hip, -⟩ | ⟨hp, hlead, -⟩
        · rw [← hip] at heq ⊢
          exact h.leader i u hi hu₀ heq
        · exact absurd (hlead.unique u hu₀ (heq.trans hp)) huc
    · rw [hmoved.other t htc] at heq ⊢
      have hold := h.leader t u (hcounts t ht) hu₀ heq
      by_cases huc : u = c
      · subst huc
        rw [hself.1, hkeep (hold.trans heq.symm)]
        exact hold
      · rw [hmoved.other u huc]
        exact hold
  · rw [hmoved.other _ hidle.symm]
    exact h.idle

/-! ### `setpgid` and `setsid` -/

theorem assignPgid_cases (k : Kernel) (c : Nat) (pgid : Int) :
    (assignPgid k c pgid).2 = k ∨
      Moved k c pgid (k.tasks c).sid (assignPgid k c pgid).2 ∧
        ((k.tasks c).pgid = (k.tasks c).pid → pgid = (k.tasks c).pgid) := by
  rw [assignPgid]
  split
  · exact Or.inl rfl
  · rename_i hnot
    refine Or.inr ⟨⟨?_, fun t ht => ?_, rfl, rfl⟩, ?_⟩
    · dsimp only
      rw [Kernel.modifyTask_self]
    · dsimp only
      exact Kernel.modifyTask_ne k _ ht
    · intro hleader
      by_contra hne
      exact hnot ⟨hleader, hne⟩

/-- `setpgid` on a target: nothing happens, or it joins a group of the ring in its
own session, or makes the group named after `pid`. -/
theorem setpgidOf_cases {c : Nat} {pid pgid : Int}
    (hchain : Chain (ringNext k) (some initTask) ring)
    (h : setpgidOf fuel k c pid pgid = .ok r) :
    r.2 = k ∨ Moved k c pgid (k.tasks c).sid r.2 ∧
      ((k.tasks c).pgid = (k.tasks c).pid → pgid = (k.tasks c).pgid) ∧
      (pid = pgid ∨ ∃ i, InService k ring i ∧ (k.tasks i).pgid = pgid ∧
        (k.tasks i).sid = (k.tasks c).sid) := by
  have hassign : (pid = pgid ∨ ∃ i, InService k ring i ∧
      (k.tasks i).pgid = pgid ∧ (k.tasks i).sid = (k.tasks c).sid) →
      r = assignPgid k c pgid → r.2 = k ∨ Moved k c pgid (k.tasks c).sid r.2 ∧
        ((k.tasks c).pgid = (k.tasks c).pid → pgid = (k.tasks c).pgid) ∧
        (pid = pgid ∨ ∃ i, InService k ring i ∧ (k.tasks i).pgid = pgid ∧
          (k.tasks i).sid = (k.tasks c).sid) := by
    rintro hgroup rfl
    rcases assignPgid_cases k c pgid with hsame | ⟨hmoved, hkeep⟩
    · exact Or.inl hsame
    · exact Or.inr ⟨hmoved, hkeep, hgroup⟩
  rw [setpgidOf] at h
  split at h
  · rw [← Except.ok.inj h]
    exact Or.inl rfl
  split at h
  · rw [bind_ok_iff] at h
    obtain ⟨l, hl, h⟩ := h
    obtain rfl := ringFrom_eq hl hchain
    split at h
    · rw [← Except.ok.inj h]
      exact Or.inl rfl
    rename_i i hfind
    split at h
    · rw [← Except.ok.inj h]
      exact Or.inl rfl
    rename_i hsid
    have hi : (k.tasks i).pgid = pgid ∧ (k.tasks i).state ≠ .deleted := by
      simpa using List.find?_some hfind
    refine hassign (Or.inr ⟨i, ⟨List.mem_of_find?_eq_some hfind, hi.2⟩, hi.1,
      not_not.mp hsid⟩) (Except.ok.inj h).symm
  · rename_i heq
    exact hassign (Or.inl (not_not.mp heq)) (Except.ok.inj h).symm

theorem Groups.setpgidOf (h : Groups k ring)
    (hchain : Chain (ringNext k) (some initTask) ring)
    (hring : ∀ t, InService k ring t → Counts k t ∧ t ≠ idleTask) {c : Nat}
    {pgid : Int} (hc : Counts k c) (hidle : c ≠ idleTask)
    (hlead : MayLead k ring c)
    (hrun : GlitchedOS.setpgidOf fuel k c (k.tasks c).pid pgid = .ok r) :
    Groups r.2 ring ∧ ∀ t, t ≠ c → r.2.tasks t = k.tasks t := by
  rcases setpgidOf_cases hchain hrun with heq | ⟨hmoved, hkeep, hgroup⟩
  · rw [heq]
    exact ⟨h, fun _ _ => rfl⟩
  refine ⟨h.move hmoved hidle hkeep ?_, hmoved.other⟩
  rcases hgroup with rfl | ⟨i, hi, hip, his⟩
  · by_cases hself : (k.tasks c).pgid = (k.tasks c).pid
    · exact Or.inl ⟨c, hc, hidle, hself, rfl⟩
    · exact Or.inr ⟨rfl, hlead, hself⟩
  · exact Or.inl ⟨i, (hring i hi).1, (hring i hi).2, hip, his⟩

theorem Groups.mayLead (h : Groups k ring) (ht : Tree k ring) {c : Nat}
    (hc : InService k ring c) : MayLead k ring c where
  pid := ht.pids.bound c hc.1
  others := fun t hcounts _ heq =>
    (h.leader t c hcounts hc heq.symm).trans heq
  unique := fun u hu heq => ht.pids.distinct u hu.1 c hc.1 hu.2 hc.2 heq

theorem Groups.setsid (h : Groups k ring) (hidle : k.current ≠ idleTask)
    (hlead : MayLead k ring k.current) :
    Groups (GlitchedOS.setsid k).2 ring ∧
      ∀ t, t ≠ k.current → (GlitchedOS.setsid k).2.tasks t = k.tasks t := by
  rw [GlitchedOS.setsid]
  split
  · exact ⟨h, fun _ _ => rfl⟩
  rename_i hnot
  have hmoved : Moved k k.current k.currentTask.pid k.currentTask.pid
      (k.modifyCurrent fun x => { x with sid := x.pid, pgid := x.pid }) :=
    ⟨Kernel.modifyTask_self k k.current _,
      fun _ ht => Kernel.modifyTask_ne k _ ht, rfl, rfl⟩
  exact ⟨h.move hmoved hidle (fun heq => absurd heq hnot)
    (Or.inr ⟨rfl, hlead, hnot⟩), hmoved.other⟩

/-- `setpgid` of the running task or of a child of it. -/
theorem Groups.setpgid (h : Groups k ring) (ht : Tree k ring)
    {pid pgid : Int} (hcur : k.current ∈ ring)
    (halive : ¬k.currentTask.Dead)
    (hrun : GlitchedOS.setpgid fuel k pid pgid = .ok r) : Groups r.2 ring := by
  rw [GlitchedOS.setpgid, bind_ok_iff] at hrun
  obtain ⟨target, htarget, hrun⟩ := hrun
  generalize (if pid = 0 then k.currentTask.pid else pid) = pid at htarget hrun
  cases target with
  | none =>
      rw [← Except.ok.inj hrun]
      exact h
  | some c =>
      have hc : InService k ring c ∧ (k.tasks c).pid = pid := by
        split at htarget
        · obtain ⟨kids, hkids⟩ := ht.family.children hcur halive
          obtain ⟨hmem, hstate, hpid⟩ := getChild_mem hkids.segment htarget
          exact ⟨⟨((hkids.mem c).mp hmem).mem, hstate⟩, hpid⟩
        · rename_i heq
          obtain rfl := Option.some.inj (Except.ok.inj htarget)
          exact ⟨⟨hcur, fun hd => halive (Or.inr hd)⟩, (not_not.mp heq).symm⟩
      have hcounts := ht.order.counts hc.1
      dsimp only at hrun
      rw [← hc.2] at hrun
      exact (h.setpgidOf ht.order.chain (fun _ => ht.order.counts) hcounts.1
        hcounts.2 (h.mayLead ht hc.1) hrun).1

/-! ### New tasks -/

theorem Groups.raiseLast (h : Groups k ring) :
    Groups { k with lastPid := k.lastPid + 1 } ring where
  bound := fun t ht => Int.le_add_one (h.bound t ht)
  positive := h.positive
  session := h.session
  leader := h.leader
  idle := h.idle

/-- The task at `new` is a copy of `s`, with the process number `s` has or one
that names no group. -/
theorem Groups.copied (h : Groups k ring) {new s : Nat} {phys : PhysMem} {x : Task}
    (hs : Counts k s) (hidle : s ≠ idleTask) (hfree : new ≠ idleTask)
    (hpgid : x.pgid = (k.tasks s).pgid) (hsid : x.sid = (k.tasks s).sid)
    (hsteady : Steady (allocTask k new phys x) k')
    (hring : ∀ u ∈ ring', u = new ∨ u ∈ ring)
    (hpid : new ∈ ring' → ∀ t, Counts k t → x.pid = (k.tasks t).pgid →
      (k.tasks s).pgid = (k.tasks t).pgid) : Groups k' ring' := by
  have hmade := allocTask_new k new phys x
  have hother : ∀ u, u ≠ new → (allocTask k new phys x).tasks u = k.tasks u :=
    fun u hu => allocTask_ne k phys x hu
  have hcounts : ∀ t, Counts k' t → t ≠ new → Counts k t := by
    intro t ht hne
    obtain ⟨hmem, hlive⟩ := hsteady.counts ht
    rw [hother t hne] at hlive
    exact ⟨Finset.mem_of_mem_insert_of_ne hmem hne, hlive⟩
  refine h.of_source (fun t => if t = new then s else t) (fun t ht => ?_)
    (fun t ht => ?_) (fun t ht => ?_) (fun t ht heq => ?_) ?_ hsteady.lastPid.ge
    fun t u ht hu heq => ?_
  · split
    · exact hs
    · rename_i hne
      exact hcounts t ht hne
  · rw [hsteady.pgid]
    split
    · rename_i heq
      rw [heq, hmade, hpgid]
    · rename_i hne
      rw [hother t hne]
  · rw [hsteady.sid]
    split
    · rename_i heq
      rw [heq, hmade, hsid]
    · rename_i hne
      rw [hother t hne]
  · split at heq
    · exact absurd heq hidle
    · exact heq
  · rw [hsteady.pgid, hother _ hfree.symm]
    exact h.idle
  · rw [hsteady.pid] at heq
    rw [hsteady.pgid]
    by_cases hne : u = new
    · rw [hne, hmade] at heq ⊢
      rw [hpgid]
      exact hpid (hne ▸ hu.1) t ht heq
    · rw [hother u hne] at heq ⊢
      refine h.leader t u ht ⟨(hring u hu.1).resolve_left hne, fun hd => ?_⟩ heq
      exact hu.2 (hsteady.deleted u (by rw [hother u hne]; exact hd))

theorem Groups.unnamed (h : Groups k ring) {t : Nat} (ht : Counts k t) :
    k.lastPid + 1 ≠ (k.tasks t).pgid := by
  have hbound := h.bound t ht
  omega

theorem Groups.fork (h : Groups k ring) (ht : Tree k ring) {new : Nat}
    (hcur : k.current ∈ ring) (halive : ¬k.currentTask.Dead)
    (hfree : new ≠ idleTask) (hring : ∀ u ∈ ring', u = new ∨ u ∈ ring)
    (hrun : GlitchedOS.fork k new = .ok k') : Groups k' ring' := by
  obtain ⟨cr3, phys, k₁, -, hk₁, rfl⟩ := fork_ok hrun
  have hfiles := FilesOnly.addRefs k.currentTask.fdTable (allocTask k new phys
    { k.currentTask with state := .ready, cr3 := cr3 })
  rw [← hk₁] at hfiles
  have hsame := Steady.of_filesOnly hfiles
  have hcurrent : k₁.current = k.current :=
    (Quiet.of_attrsOnly (.of_filesOnly hfiles)).current
  have hservice : InService k ring k.current :=
    ⟨hcur, fun hd => halive (Or.inr hd)⟩
  clear hk₁ hrun
  have hlink : ∀ u, (((forkLink k₁ new).tasks u).pgid,
      ((forkLink k₁ new).tasks u).sid) = ((k₁.tasks u).pgid, (k₁.tasks u).sid) :=
    fun u => (forkLink_proj (fun x => (x.pgid, x.sid)) (fun _ _ _ _ => rfl) k₁ new
      u).trans ((LinksOnly.linkTask k₁ new k₁.current).proj
        (fun x => (x.pgid, x.sid)) (fun _ _ => rfl) u)
  have hsteady : Steady (allocTask { k with lastPid := k.lastPid + 1 } new phys
      { k.currentTask with state := .ready, cr3 := cr3, pid := k.lastPid + 1 })
      (forkLink k₁ new) := by
    refine ⟨fun u => ?_, fun u hd => ?_, hsame.allocated, ?_⟩
    · refine Prod.ext ?_ ((hlink u).trans ?_)
      · show ((forkLink k₁ new).tasks u).pid = _
        rw [forkLink_pid, hsame.pid, hsame.lastPid]
        split
        · rename_i hu
          rw [hu, allocTask_new]
          rfl
        · rename_i hu
          rw [allocTask_ne _ _ _ hu, allocTask_ne _ _ _ hu]
          rfl
      · rw [hsame.pgid, hsame.sid]
        by_cases hu : u = new
        · rw [hu, allocTask_new, allocTask_new]
          rfl
        · rw [allocTask_ne _ _ _ hu, allocTask_ne _ _ _ hu]
          rfl
    · by_cases hu : u = new
      · rw [hu, allocTask_new] at hd
        cases hd
      rw [allocTask_ne _ _ _ hu] at hd
      rw [forkLink_state, if_neg, hfiles.proj Task.state fun _ _ => rfl,
        allocTask_ne _ _ _ hu]
      · exact hd
      · rw [hcurrent]
        rintro rfl
        exact halive (Or.inr hd)
    · rw [(forkLink_fields k₁ new).2.2.2, hsame.lastPid]
      rfl
  refine h.raiseLast.copied (ht.order.counts hservice).1 (ht.order.counts hservice).2
    hfree ?_ ?_ hsteady hring fun _ t hcounts heq => ?_
  · rfl
  · rfl
  · exact absurd heq (h.unnamed hcounts)

theorem Groups.createKworker (h : Groups k ring) (ht : Tree k ring) {new : Nat}
    {regs : Iframe} (hfree : new ≠ idleTask)
    (hring : ∀ u ∈ ring', u = new ∨ u ∈ ring)
    (hrun : GlitchedOS.createKworker k new regs = .ok k') : Groups k' ring' := by
  obtain ⟨cr3, phys, -, rfl⟩ := createKworker_ok hrun
  have hinit := ht.order.allocated _ ht.order.init_mem
  refine h.raiseLast.copied (s := initTask) ⟨hinit.1, Or.inr rfl⟩ hinit.2 hfree
    (x := kworkerTask k cr3 regs) rfl rfl (.modifyTask _ k.current rfl id) hring
    fun _ t hcounts heq => ?_
  exact absurd heq (h.unnamed hcounts)

/-! ### Programs -/

/-- The task under construction in `add_task`: it has a process number that names
no group but its own. -/
structure UnderWay (k : Kernel) (ring : List Nat) (new : Nat) : Prop where
  groups : Groups k ring
  order : Ring k ring
  counts : Counts k new
  idle : new ≠ idleTask
  pid : 0 < (k.tasks new).pid ∧ (k.tasks new).pid ≤ k.lastPid
  unnamed : ∀ t, Counts k t → t ≠ new → (k.tasks t).pgid ≠ (k.tasks new).pid
  fresh : ∀ u, InService k ring u → (k.tasks u).pid ≠ (k.tasks new).pid

namespace UnderWay

variable {new : Nat}

theorem mayLead (h : UnderWay k ring new) : MayLead k ring new where
  pid := h.pid
  others := fun t ht hne heq => absurd heq (h.unnamed t ht hne)
  unique := fun u hu heq => absurd heq (h.fresh u hu)

theorem next (h : UnderWay k ring new) (hattrs : AttrsOnly k k') (hgroups : Groups k' ring)
    (hother : ∀ t, t ≠ new → (k'.tasks t).pgid = (k.tasks t).pgid) :
    UnderWay k' ring new := by
  have hq := Quiet.of_attrsOnly hattrs
  have hstate := hattrs.proj Task.state fun _ _ => rfl
  have hpid := hattrs.proj Task.pid fun _ _ => rfl
  have hnext := hattrs.proj Task.next fun _ _ => rfl
  have hcounts : ∀ t, Counts k' t ↔ Counts k t := fun t => by
    rw [Counts, Counts, hq.allocated, hstate]
  refine ⟨hgroups, ?_, (hcounts new).mpr h.counts, h.idle, ?_, ?_, ?_⟩
  · exact h.order.congr (fun t _ => hnext t) hq.allocated.ge hq.rr hq.current
  · rw [hpid, hq.lastPid]
    exact h.pid
  · intro t ht hne
    rw [hother t hne, hpid]
    exact h.unnamed t ((hcounts t).mp ht) hne
  · intro u hu
    rw [hpid, hpid]
    exact h.fresh u ⟨hu.1, fun hd => hu.2 ((hstate u).trans hd)⟩

theorem of_steady (h : UnderWay k ring new) (hattrs : AttrsOnly k k')
    (hsteady : Steady k k') : UnderWay k' ring new :=
  h.next hattrs (h.groups.of_steady hsteady fun _ hu => hu)
    fun t _ => hsteady.pgid t

theorem spawnAction {pid : Int} {a : SpawnAction} (h : UnderWay k ring new)
    (hpid : (k.tasks new).pid = pid)
    (hrun : GlitchedOS.spawnAction env fuel k new pid a = .ok r) :
    UnderWay r.2 ring new := by
  have hattrs := AttrsOnly.spawnAction hrun
  have hswap : ∀ (k : Kernel) (c : Nat), Steady k { k with current := c } :=
    fun k c => ⟨.refl k, fun _ hd => hd, Finset.Subset.refl _, rfl⟩
  have hgroups := h.groups.of_steady (hswap k new) fun _ hu => hu
  have hlead : MayLead { k with current := new } ring new :=
    ⟨h.mayLead.pid, h.mayLead.others, h.mayLead.unique⟩
  rw [GlitchedOS.spawnAction] at hrun
  dsimp only at hrun
  split at hrun
  · refine h.of_steady hattrs ?_
    rw [← Except.ok.inj hrun]
    exact (hswap k new).trans (.trans (.of_filesOnly (.dup2 env _ a.oldfd a.newfd))
      (hswap _ k.current))
  · refine h.of_steady hattrs ?_
    rw [← Except.ok.inj hrun]
    exact (hswap k new).trans (.trans (.sigprocmask _ a.sigmaskHow a.sigmask)
      (hswap _ k.current))
  · rw [bind_ok_iff] at hrun
    obtain ⟨r₁, hset, hrun⟩ := hrun
    obtain rfl := Except.ok.inj hrun
    have hmoved : Groups r₁.2 ring ∧ ∀ t, t ≠ new → r₁.2.tasks t = k.tasks t := by
      have hnonzero : pid ≠ 0 := hpid ▸ h.pid.1.ne'
      rw [GlitchedOS.setpgid, bind_ok_iff, if_neg hnonzero] at hset
      obtain ⟨target, htarget, hset⟩ := hset
      have hcur : ({ k with current := new } : Kernel).currentTask.pid = pid := hpid
      rw [if_neg (not_not.mpr hcur.symm)] at htarget
      obtain rfl := Except.ok.inj htarget
      rw [← hcur] at hset
      exact hgroups.setpgidOf h.order.chain (fun _ => h.order.counts) h.counts
        h.idle hlead hset
    exact h.next hattrs (hmoved.1.of_steady (hswap r₁.2 k.current) fun _ hu => hu)
      fun t ht => congrArg Task.pgid (hmoved.2 t ht)
  · have hmoved := hgroups.setsid h.idle hlead
    obtain rfl := Except.ok.inj hrun
    exact h.next hattrs (hmoved.1.of_steady (hswap _ k.current) fun _ hu => hu)
      fun t ht => congrArg Task.pgid (hmoved.2 t ht)
  · obtain rfl := Except.ok.inj hrun
    exact h

theorem spawnActions {pid : Int} {actions : List SpawnAction} (h : UnderWay k ring new)
    (hpid : (k.tasks new).pid = pid)
    (hrun : GlitchedOS.spawnActions env fuel new pid actions k = .ok r) :
    UnderWay r.2 ring new := by
  induction actions generalizing k with
  | nil =>
      obtain rfl := Except.ok.inj hrun
      exact h
  | cons a rest ih =>
      rw [GlitchedOS.spawnActions, bind_ok_iff] at hrun
      obtain ⟨⟨res, k₁⟩, hfirst, hrun⟩ := hrun
      have hone := h.spawnAction hpid hfirst
      dsimp only at hrun
      split at hrun
      · obtain rfl := Except.ok.inj hrun
        exact hone
      · refine ih hone ?_ hrun
        exact ((AttrsOnly.spawnAction hfirst).proj Task.pid (fun _ _ => rfl)
          new).trans hpid

theorem join (h : UnderWay k ring new) (hsteady : Steady k k')
    (hring : ∀ u ∈ ring', u = new ∨ u ∈ ring) : Groups k' ring' := by
  refine h.groups.of_source id (fun t => hsteady.counts) (fun t _ => hsteady.pgid t)
    (fun t _ => hsteady.sid t) (fun _ _ => id) ?_ hsteady.lastPid.ge
    fun t u ht hu heq => ?_
  · rw [hsteady.pgid]
    exact h.groups.idle
  rw [hsteady.pid] at heq
  rw [hsteady.pgid]
  rcases hring u hu.1 with rfl | hmem
  · by_cases htu : t = u
    · rw [htu]
    · exact absurd heq.symm (h.unnamed t ht htu)
  · exact h.groups.leader t u ht ⟨hmem, fun hd => hu.2 (hsteady.deleted u hd)⟩ heq

end UnderWay

theorem Steady.loadProgram {env : ExecEnv} {cr3 : Nat} {res : Int}
    {program : Option (BitVec 64 × Nat × BitVec 64)}
    (h : GlitchedOS.loadProgram env k cr3 = .ok (res, program, k')) :
    Steady k k' := by
  obtain ⟨phys, rfl⟩ := loadProgram_phys h
  exact ⟨.refl k, fun _ hd => hd, Finset.Subset.refl _, rfl⟩

/-- `add_task` copies the running task, runs the spawn actions on the copy, and
changes no group after that. -/
theorem addTask_steady {env : ExecEnv} {new : Nat} {args : ExecArgs}
    {parent : Option Nat} {pid res : Int}
    (h : addTask env fuel k args parent pid new = .ok (res, k')) :
    k' = k ∨ ∃ phys cr3 k₁ actions r, validateArgs args = .ok actions ∧
      FilesOnly (allocTask k new phys (execTask k cr3 pid)) k₁ ∧
      spawnActions env.closeEnv fuel new pid actions k₁ = .ok r ∧
      Steady r.2 k' := by
  rw [addTask] at h
  split at h
  · obtain ⟨-, rfl⟩ := Prod.mk.inj (Except.ok.inj h)
    exact Or.inl rfl
  rename_i actions hargs
  rw [bind_ok_iff] at h
  obtain ⟨k₁, hnew, h⟩ := h
  rw [bind_ok_iff] at h
  obtain ⟨⟨res₁, k₂⟩, hactions, h⟩ := h
  obtain ⟨cr3, phys, -, hk₁⟩ := newTask_ok hnew
  have hmade := FilesOnly.addRefs k.currentTask.fdTable
    (allocTask k new phys (execTask k cr3 pid))
  rw [execTask, ← hk₁] at hmade
  refine Or.inr ⟨phys, cr3, k₁, actions, _, hargs, hmade, hactions, ?_⟩
  dsimp only at h
  split at h
  · obtain ⟨-, rfl⟩ := Prod.mk.inj (Except.ok.inj h)
    exact .of_quiet (.refl k₂) (.refl k₂)
  have hclosed := Steady.of_filesOnly (FilesOnly.closeOnExec env.closeEnv new k₂)
  rw [startTask, bind_ok_iff] at h
  obtain ⟨⟨res₂, program, k₃⟩, hload, h⟩ := h
  have hloaded := hclosed.trans (.loadProgram hload)
  dsimp only at h
  split at h
  · obtain ⟨-, rfl⟩ := Prod.mk.inj (Except.ok.inj h)
    exact hloaded
  split at h
  · cases h
  · obtain ⟨-, rfl⟩ := Prod.mk.inj (Except.ok.inj h)
    exact (hloaded.trans (.modifyTask _ _ rfl id)).trans
      (.of_linksOnly (.linkTask _ _ _))

theorem validateArgs_noActions {args : ExecArgs} {actions : List SpawnAction}
    (h : validateArgs { args with actions := none } = .ok actions) :
    actions = [] := by
  obtain ⟨argv, envp, actions'⟩ := args
  have hrest : validateArgs ⟨none, envp, none⟩ = .ok actions → actions = [] := by
    intro h
    cases envp with
    | none => exact (Except.ok.inj h).symm
    | some envp =>
        change (scanSlots envp maxArgs 0 >>= _) = _ at h
        obtain ⟨l, -, h⟩ := bind_ok_iff.mp h
        split at h
        · cases h
        · exact (Except.ok.inj h).symm
  cases argv with
  | none => exact hrest h
  | some argv =>
      change (scanSlots argv maxArgs 0 >>= _) = _ at h
      obtain ⟨l, -, h⟩ := bind_ok_iff.mp h
      split at h
      · cases h
      · exact hrest h

/-- The tasks of the ring after a step that makes at most the task `new`. -/
theorem OldOrNew.mem {new : Nat} (h : OldOrNew k ring ring')
    (hring : ∀ u ∈ ring', u ∈ k'.allocated)
    (hmade : k'.allocated ⊆ insert new k.allocated) :
    ∀ u ∈ ring', u = new ∨ u ∈ ring := fun u hu =>
  (h u hu).elim Or.inr fun hout =>
    Or.inl ((Finset.mem_insert.mp (hmade (hring u hu))).resolve_right hout)

/-- The copy of the running task, before the spawn actions. -/
theorem Groups.underWay (h : Groups k ring) (ht : Tree k ring) {new cr3 : Nat}
    {phys : PhysMem} (hcur : k.current ∈ ring) (halive : ¬k.currentTask.Dead)
    (hnew : new ∉ k.allocated) (hfree : new ≠ idleTask)
    (hfiles : FilesOnly (allocTask { k with lastPid := k.lastPid + 1 } new phys
      (execTask { k with lastPid := k.lastPid + 1 } cr3 (k.lastPid + 1))) k') :
    UnderWay k' ring new ∧ (k'.tasks new).pid = k.lastPid + 1 := by
  have hservice : InService k ring k.current :=
    ⟨hcur, fun hd => halive (Or.inr hd)⟩
  have hsteady := Steady.of_filesOnly hfiles
  have hq := Quiet.of_attrsOnly (.of_filesOnly hfiles)
  have hstate := hfiles.proj Task.state fun _ _ => rfl
  have hne : ∀ u ∈ ring, u ≠ new := fun u hu heq =>
    hnew (heq ▸ (ht.order.allocated u hu).1)
  have hpid : (k'.tasks new).pid = k.lastPid + 1 := by
    rw [hsteady.pid, allocTask_new]
    rfl
  have hinit := ht.pids.bound _ ht.order.init_mem
  have hgroups : Groups k' ring := by
    refine h.raiseLast.copied (ht.order.counts hservice).1
      (ht.order.counts hservice).2 hfree ?_ ?_ hsteady (fun _ => Or.inr)
      fun hmem => absurd rfl (hne new hmem)
    · rfl
    · rfl
  refine ⟨⟨hgroups, ?_, ⟨?_, Or.inl ?_⟩, hfree, ?_, fun t hcounts htn => ?_,
    fun u hu => ?_⟩, hpid⟩
  · refine ht.order.congr (fun u hu => ?_) ?_ hq.rr hq.current
    · rw [hfiles.proj Task.next fun _ _ => rfl, allocTask_ne _ _ _ (hne u hu)]
    · rw [hq.allocated]
      exact Finset.subset_insert _ _
  · rw [hq.allocated]
    exact Finset.mem_insert_self _ _
  · rw [hstate, allocTask_new]
    exact fun hd => by cases hd
  · rw [hpid, hsteady.lastPid]
    exact ⟨by omega, le_refl _⟩
  · rw [hpid, hsteady.pgid, allocTask_ne _ _ _ htn]
    refine (h.unnamed ?_).symm
    obtain ⟨hmem, hlive⟩ := hsteady.counts hcounts
    rw [allocTask_ne _ _ _ htn] at hlive
    exact ⟨Finset.mem_of_mem_insert_of_ne hmem htn, hlive⟩
  · have hbound := ht.pids.bound u hu.1
    rw [hpid, hsteady.pid, allocTask_ne _ _ _ (hne u hu.1)]
    dsimp only
    omega

theorem Groups.spawn (h : Groups k ring) (ht : Tree k ring) {env : ExecEnv}
    {new : Nat} {args : ExecArgs} {res : Int} (hcur : k.current ∈ ring)
    (halive : ¬k.currentTask.Dead) (hnew : new ∉ k.allocated)
    (hfree : new ≠ idleTask) (hold : OldOrNew k ring ring')
    (hring : ∀ u ∈ ring', u ∈ k'.allocated)
    (hrun : GlitchedOS.spawn env fuel k args new = .ok (res, k')) :
    Groups k' ring' := by
  obtain ⟨k₁, hadd, hways⟩ := spawn_ok hrun
  have hcne : k.current ≠ new := fun heq =>
    hnew (heq ▸ (ht.order.allocated _ hcur).1)
  have hstate : (k₁.tasks k.current).state = k.currentTask.state :=
    addTask_frame hadd Task.state (fun _ _ => rfl) (fun _ _ => rfl) hcne
  have hlast : Steady k₁ k' := by
    rcases hways with ⟨-, rfl⟩ | ⟨-, rfl⟩
    · exact .of_quiet (.refl _) (.refl _)
    · have hready : Steady k₁ (k₁.modifyCurrent fun x =>
          { x with state := .ready, iframe := { x.iframe with rax := res } }) := by
        refine .modifyTask k₁ k₁.current rfl fun hd => ?_
        rw [(addTask_current hadd).1, hstate] at hd
        exact absurd (Or.inr hd) halive
      exact ⟨hready.ids, hready.deleted, hready.allocated, hready.lastPid⟩
  rcases addTask_steady hadd with rfl | ⟨phys, cr3, k₂, actions, r, -, hmade,
      hactions, hrest⟩
  · refine h.raiseLast.of_steady hlast fun u hu => ?_
    exact (hold u hu).resolve_right fun hout => hout (hlast.allocated (hring u hu))
  obtain ⟨hunder, hpid⟩ := h.underWay ht hcur halive hnew hfree hmade
  have hend := hunder.spawnActions hpid hactions
  refine hend.join (hrest.trans hlast) (hold.mem hring ?_)
  refine (hrest.trans hlast).allocated.trans ?_
  rw [(Quiet.of_attrsOnly (AttrsOnly.spawnActions hactions)).allocated,
    (Quiet.of_attrsOnly (.of_filesOnly hmade)).allocated]
  exact Finset.Subset.refl _

theorem Steady.execed {env : ExecEnv} {old new : Nat} {l : List Nat} {k₂ k₃ : Kernel}
    (hk₂ : k₂ = redirectWaiters old new l
      (k.modifyTask old fun x => { x with state := .deleted }))
    (hk₃ : k₃ = releaseProcessFds env.closeEnv k₂)
    (h : execveFinish fuel k₃ old new = .ok k') : Steady k k' := by
  have hdeleted : Steady k (k.modifyTask old fun x => { x with state := .deleted }) :=
    .modifyTask k old rfl fun _ => rfl
  have hredirect : Steady (k.modifyTask old fun x => { x with state := .deleted })
      k₂ := by
    rw [hk₂]
    exact .of_quiet (redirectWaiters_life _ _ _ _)
      (redirectWaiters_proj Task.ids (fun _ _ => rfl) _ _ _ _)
  have hfiles : Steady k₂ k₃ := by
    rw [hk₃]
    exact .of_filesOnly (.releaseProcessFds env.closeEnv k₂)
  obtain ⟨k₄, hrep, rfl⟩ := execveFinish_ok h
  have hall := ((hdeleted.trans hredirect).trans hfiles).trans
    (.of_linksOnly (LinksOnly.reparent hrep))
  exact ⟨hall.ids, hall.deleted, hall.allocated, hall.lastPid⟩

theorem Groups.execve (h : Groups k ring) (ht : Tree k ring) {env : ExecEnv}
    {new : Nat} {args : ExecArgs} {res : Int} (hcur : k.current ∈ ring)
    (halive : ¬k.currentTask.Dead) (hfree : new ≠ idleTask)
    (hold : OldOrNew k ring ring') (hring : ∀ u ∈ ring', u ∈ k'.allocated)
    (hrun : GlitchedOS.execve env fuel k args new = .ok (res, k')) :
    Groups k' ring' := by
  have hservice : InService k ring k.current :=
    ⟨hcur, fun hd => halive (Or.inr hd)⟩
  obtain ⟨k₁, hadd, hways⟩ := execve_ok hrun
  have hlast : Steady k₁ k' := by
    rcases hways with ⟨-, rfl⟩ | ⟨-, l, k₂, k₃, -, hk₂, hk₃, hfinish⟩
    · exact .of_quiet (.refl _) (.refl _)
    · exact .execed hk₂ hk₃ hfinish
  clear hways hrun
  rcases addTask_steady hadd with rfl | ⟨phys, cr3, k₂, actions, r, hargs, hmade,
      hactions, hrest⟩
  · refine h.of_steady hlast fun u hu => ?_
    exact (hold u hu).resolve_right fun hout => hout (hlast.allocated (hring u hu))
  obtain rfl := validateArgs_noActions hargs
  obtain rfl := Except.ok.inj hactions
  have hsteady := (Steady.of_filesOnly hmade).trans (hrest.trans hlast)
  refine h.copied (ht.order.counts hservice).1 (ht.order.counts hservice).2 hfree
    ?_ ?_ hsteady (hold.mem hring hsteady.allocated) fun _ t hcounts heq => ?_
  · rfl
  · rfl
  · exact h.leader t k.current hcounts hservice heq

/-! ### Runs -/

theorem step_groups {op : Op} (h : Groups k ring) (ho : Orderly k ring)
    (hstep : SparingStep k op k') (hold : OldOrNew k ring ring')
    (hring : ∀ u ∈ ring', u ∈ k'.allocated) : Groups k' ring' := by
  have hkept : Steady k k' → Groups k' ring' := fun hs =>
    h.of_steady hs fun u hu =>
      (hold u hu).resolve_right fun hout => hout (hs.allocated (hring u hu))
  by_cases hop : op.regroups = false
  · exact hkept (step_steady ho.lively hstep.1 hop hstep.2)
  obtain ⟨henabled, fuel, reports, hrun⟩ := hstep.2
  have henter := fun n => AttrsOnly.enterSyscall k n
  have hquiet := fun n => Quiet.of_attrsOnly (henter n)
  have htree := fun n => ho.tree.of_attrsOnly (henter n)
  have hgroups := fun n => h.of_steady (Steady.enterSyscall k n) fun _ hu => hu
  have halive : k.switching = false → ∀ n, ¬(enterSyscall k n).currentTask.Dead :=
    fun hs n => ((hquiet n).keepsDead ho.lively).lively.current hs
  have hcur : k.currentTask.isKworker = false → k.current ∈ ring :=
    ho.tree.current_mem ho.lively
  have hfree : ∀ {new : Nat}, new ∉ k.allocated → new ≠ idleTask :=
    fun hout heq => hout (heq ▸ ho.lively.apart.allocated)
  cases op with
  | fork new =>
      replace hrun := reportsNone_ok hrun
      refine (hgroups 11).fork (htree 11) (hcur henabled.2.1)
        (halive henabled.1 11) (hfree henabled.2.2) (hold.mem hring ?_) hrun
      obtain ⟨cr3, phys, k₂, -, hk₂, rfl⟩ := fork_ok hrun
      rw [(forkLink_fields k₂ new).1, hk₂, (Quiet.of_attrsOnly (.of_filesOnly
        (FilesOnly.addRefs _ _))).allocated]
      exact Finset.Subset.refl _
  | createKworker new regs =>
      replace hrun := reportsNone_ok hrun
      refine h.createKworker ho.tree (hfree henabled.2) (hold.mem hring ?_) hrun
      obtain ⟨cr3, phys, -, rfl⟩ := createKworker_ok hrun
      exact Finset.Subset.refl _
  | spawn env pathRes args new =>
      replace hrun := reportsNone_ok hrun
      rw [sysSpawn] at hrun
      dsimp only at hrun
      split at hrun
      · obtain rfl := Except.ok.inj hrun
        exact hkept ((Steady.enterSyscall k 54).trans (.enterSyscall _ pathRes))
      rw [bind_ok_iff] at hrun
      obtain ⟨⟨res, k₂⟩, hspawn, hrun⟩ := hrun
      have hleave : Steady k₂ k' ∧ k'.allocated = k₂.allocated := by
        rw [← Except.ok.inj hrun]
        split
        · exact ⟨.of_quiet (.refl k₂) (.refl k₂), rfl⟩
        · exact ⟨.enterSyscall k₂ res, rfl⟩
      have hspawned : Groups k₂ ring' := (hgroups 54).spawn (htree 54)
        (hcur henabled.2.1) (halive henabled.1 54) henabled.2.2
        (hfree henabled.2.2) hold (fun u hu => hleave.2 ▸ hring u hu) hspawn
      exact hspawned.of_steady hleave.1 fun _ hu => hu
  | execve env pathRes args new =>
      replace hrun := reportsNone_ok hrun
      rw [sysExecve] at hrun
      dsimp only at hrun
      split at hrun
      · obtain rfl := Except.ok.inj hrun
        exact hkept ((Steady.enterSyscall k 12).trans (.enterSyscall _ pathRes))
      rw [bind_ok_iff] at hrun
      obtain ⟨⟨res, k₂⟩, hexec, hrun⟩ := hrun
      have hleave : Steady k₂ k' ∧ k'.allocated = k₂.allocated := by
        rw [← Except.ok.inj hrun]
        split
        · exact ⟨.of_quiet (.refl k₂) (.refl k₂), rfl⟩
        · exact ⟨.enterSyscall k₂ pathRes, rfl⟩
      have hexeced : Groups k₂ ring' := (hgroups 12).execve (htree 12)
        (hcur henabled.2.1) (halive henabled.1 12) (hfree henabled.2.2) hold
        (fun u hu => hleave.2 ▸ hring u hu) hexec
      exact hexeced.of_steady hleave.1 fun _ hu => hu
  | setpgid pid pgid =>
      have hplain : (Op.setpgid pid pgid).plain = true := rfl
      have hattrs := Op.plain_attrs hplain hrun
      have hsub : ∀ u ∈ ring', u ∈ ring := fun u hu => (hold u hu).resolve_right
        fun hout => hout ((Quiet.of_attrsOnly hattrs).allocated ▸ hring u hu)
      rw [Op.run, bind_ok_iff] at hrun
      obtain ⟨r, hset, hk⟩ := hrun
      obtain ⟨-, rfl⟩ := Prod.mk.inj (Except.ok.inj hk)
      exact (h.setpgid ho.tree (hcur henabled.2) (ho.lively.current henabled.1)
        hset).of_steady (.enterSyscall r.2 r.1) hsub
  | setsid =>
      have hplain : Op.setsid.plain = true := rfl
      have hattrs := Op.plain_attrs hplain hrun
      have hsub : ∀ u ∈ ring', u ∈ ring := fun u hu => (hold u hu).resolve_right
        fun hout => hout ((Quiet.of_attrsOnly hattrs).allocated ▸ hring u hu)
      obtain ⟨-, rfl⟩ := Prod.mk.inj (Except.ok.inj hrun)
      have hservice : InService k ring k.current := ⟨hcur henabled.2, fun hd =>
        ho.lively.current henabled.1 (Or.inr hd)⟩
      have hset := h.setsid (ho.tree.order.counts hservice).2
        (h.mayLead ho.tree hservice)
      exact hset.1.of_steady (.enterSyscall _ _) hsub
  | _ => exact absurd rfl hop

/-- Groups lie in one session, and a task whose process number names a group with
members is in it.  A task that `add_task` has left out of every list counts as a
member of its group, but nothing finds it by its process number. -/
structure GroupsNest (k : Kernel) (ring : List Nat) : Prop where
  session : ∀ t ∈ k.allocated, ∀ u ∈ k.allocated,
    (k.tasks t).state ≠ .deleted → (k.tasks u).state ≠ .deleted →
    (k.tasks t).pgid = (k.tasks u).pgid → (k.tasks t).sid = (k.tasks u).sid
  leader : ∀ t ∈ k.allocated, (k.tasks t).state ≠ .deleted →
    ∀ u, u ∈ ring ∨ u = idleTask → (k.tasks u).state ≠ .deleted →
    (k.tasks u).pid = (k.tasks t).pgid → (k.tasks u).pgid = (k.tasks t).pgid

theorem Groups.nest (h : Groups k ring) (ht : Tree k ring) :
    GroupsNest k ring where
  session := fun t ht u hu htd hud heq =>
    h.session t u ⟨ht, Or.inl htd⟩ ⟨hu, Or.inl hud⟩ heq
  leader := fun t hmem htd u hu hud heq => by
    rcases hu with hu | rfl
    · exact h.leader t u ⟨hmem, Or.inl htd⟩ ⟨hu, hud⟩ heq
    · rw [h.idle, ← heq, ht.pids.idle]

theorem bootKernel_groups (info : BootInfo) :
    Groups (bootKernel info) [initTask] := by
  have hboot : ∀ t, Counts (bootKernel info) t → t = idleTask ∨ t = initTask := by
    rintro t ⟨hmem, -⟩
    rw [bootKernel, Finset.mem_insert, Finset.mem_singleton] at hmem
    exact hmem
  refine ⟨fun t ht => ?_, fun t ht hne => ?_, fun t u ht hu heq => ?_,
    fun t u ht hu heq => ?_, rfl⟩
  · rcases hboot t ht with rfl | rfl
    · exact show (0 : Int) ≤ 1 by decide
    · exact show (1 : Int) ≤ 1 by decide
  · obtain rfl := (hboot t ht).resolve_left hne
    exact show (0 : Int) < 1 by decide
  · rcases hboot t ht with rfl | rfl
    · rcases hboot u hu with rfl | rfl
      · rfl
      · cases heq
    · rcases hboot u hu with rfl | rfl
      · cases heq
      · rfl
  · obtain rfl := List.mem_singleton.mp hu.1
    exact heq

/-- In every run that sends no stop signal to a zombie, sessions and process groups
nest. -/
theorem run_groups_nest (info : BootInfo) {ops : List Op} {k : Kernel}
    (hrun : Run SparingStep (bootKernel info) ops k) :
    ∃ ring, Chain (ringNext k) (some initTask) ring ∧ GroupsNest k ring := by
  have hinv := hrun.invariant (fun k => ∃ ring, Orderly k ring ∧ Groups k ring)
    (fun k op k' hstep hk => by
      obtain ⟨ring, ho, hg⟩ := hk
      obtain ⟨ring', ho', hold, -⟩ := ho.step hstep
      exact ⟨ring', ho', step_groups hg ho hstep hold fun u hu =>
        (ho'.tree.order.allocated u hu).1⟩)
    ⟨[initTask], bootKernel_orderly info, bootKernel_groups info⟩
  obtain ⟨ring, ho, hg⟩ := hinv
  exact ⟨ring, ho.tree.order.chain, hg.nest ho.tree⟩

def childLeads : List Op := [.fork 2, .switchTask closes, .setsid, .fork 3]

set_option maxRecDepth 2000 in
theorem run_groups_nest_led : ∃ k,
    Run SparingStep (bootKernel smallBoot) childLeads k ∧
      (k.tasks 3).pgid = 2 ∧ (k.tasks 3).sid = 2 ∧
      ∃ ring, Chain (ringNext k) (some initTask) ring ∧ GroupsNest k ring := by
  have hruns : ∃ k ∈ runOps 8 (fun _ => true) childLeads (bootKernel smallBoot),
      (k.tasks 3).pgid = 2 ∧ (k.tasks 3).sid = 2 := by
    rw [childLeads, runOps_childBorn]
    decide +kernel
  obtain ⟨k, hk, hpgid, hsid⟩ := hruns
  have hrun : Run SparingStep (bootKernel smallBoot) childLeads k := by
    refine (runOps_run hk).mono_of_mem fun k op k' hop hstep => ⟨?_, hstep.2⟩
    simp only [childLeads, List.mem_cons, List.not_mem_nil, or_false] at hop
    rcases hop with rfl | rfl | rfl | rfl <;> exact trivial
  exact ⟨k, hrun, hpgid, hsid, run_groups_nest smallBoot hrun⟩

end GlitchedOS
