/-
`spawn`, `execve` and `create_kworker` keep the task ring and the process tree in
order.  A call of `add_task` that fails after it has made the new task leaves it
allocated and in no list, and so does `create_kworker` when the idle task runs.
-/
import GlitchedOS.Process.TreeSteps

namespace GlitchedOS

variable {k k' k'' : Kernel} {ring ring' : List Nat} {new p : Nat}
variable {env : ExecEnv} {res : Int} {args : ExecArgs} {fuel : Nat} {parent : Option Nat}

theorem bind_error_iff {ε α β : Type} {x : Except ε α} {f : α → Except ε β}
    {e : ε} : (x >>= f) = .error e ↔
      x = .error e ∨ ∃ a, x = .ok a ∧ f a = .error e := by
  cases x with
  | error e' => simp [bind, Except.bind]
  | ok a => simp [bind, Except.bind]

/-- The path is a program that loads. -/
structure ExecEnv.Loads (env : ExecEnv) : Prop where
  stat : 0 ≤ env.stat
  file : env.type ≠ dtDir
  lookup : 0 ≤ env.lookup
  compatible : env.compatible = true
  loadElf : ∀ phys cr3 phys', env.loadElf phys cr3 ≠ .ok (none, phys')

/-- No spawn action fails. -/
def ActionsSucceed (env : CloseEnv) (k : Kernel) (new : Nat) (pid : Int)
    (actions : List SpawnAction) : Prop :=
  ∀ k₁ fuel r, newTask k new pid = .ok k₁ →
    spawnActions env fuel new pid actions k₁ = .ok r → 0 ≤ r.1

/-- Once its arguments are accepted, `add_task` does not fail. -/
def Completes (env : ExecEnv) (args : ExecArgs) (k : Kernel) (new : Nat)
    (pid : Int) : Prop :=
  ∀ actions, validateArgs args = .ok actions →
    env.Loads ∧ ActionsSucceed env.closeEnv k new pid actions

theorem ExecEnv.Loads.loadProgram (h : env.Loads) {cr3 : Nat}
    {program : Option (BitVec 64 × Nat × BitVec 64)}
    (hrun : GlitchedOS.loadProgram env k cr3 = .ok (res, program, k')) :
    program ≠ none := by
  rw [GlitchedOS.loadProgram, if_neg (not_lt.mpr h.stat), if_neg h.file,
    if_neg (not_lt.mpr h.lookup), h.compatible] at hrun
  simp only [Bool.not_true, Bool.false_eq_true, if_false, bind_ok_iff] at hrun
  obtain ⟨⟨loaded, phys⟩, hload, hrun⟩ := hrun
  cases loaded with
  | none => exact absurd (liftPaging_ok.mp hload) (h.loadElf _ _ _)
  | some loaded =>
      simp only [bind_ok_iff] at hrun
      obtain ⟨_, -, _, -, _, -, hrun⟩ := hrun
      obtain ⟨-, hprogram, -⟩ := hrun
      exact Option.some_ne_none _

theorem loadProgram_neg {cr3 : Nat}
    (h : loadProgram env k cr3 = .ok (res, none, k')) : res < 0 := by
  rw [loadProgram] at h
  split at h
  · rename_i hstat
    obtain ⟨rfl, -⟩ := Prod.mk.inj (Except.ok.inj h)
    exact hstat
  split at h
  · obtain ⟨rfl, -⟩ := Prod.mk.inj (Except.ok.inj h)
    decide
  split at h
  · rename_i hlookup
    obtain ⟨rfl, -⟩ := Prod.mk.inj (Except.ok.inj h)
    exact hlookup
  split at h
  · obtain ⟨rfl, -⟩ := Prod.mk.inj (Except.ok.inj h)
    decide
  rw [bind_ok_iff] at h
  obtain ⟨⟨loaded, phys⟩, -, h⟩ := h
  cases loaded with
  | none =>
      obtain ⟨rfl, -⟩ := Prod.mk.inj (Except.ok.inj h)
      decide
  | some loaded =>
      simp only [bind_ok_iff] at h
      obtain ⟨_, -, _, -, _, -, h⟩ := h
      cases Except.ok.inj h

theorem scanSlots_neg {α : Type} {slots : Nat → UserSlot α} {res : Int} :
    ∀ {n i : Nat}, scanSlots slots n i = .error res → res < 0
  | 0, _, h => by cases h
  | n + 1, i, h => by
      rw [scanSlots] at h
      split at h
      · rename_i hres
        rw [← Except.error.inj h]
        exact hres
      split at h
      · cases h
      split at h
      · rename_i hres
        rw [← Except.error.inj h]
        exact hres
      · cases hrest : scanSlots slots n (i + 1) with
        | error e =>
            rw [hrest] at h
            obtain rfl := Except.error.inj h
            exact scanSlots_neg hrest
        | ok rest =>
            rw [hrest] at h
            cases h

/-- The checks of `exec` on its actions, for a number of variables. -/
def checkActions (envc : Nat) :
    Option (Nat → UserSlot SpawnAction) → Except Int (List SpawnAction)
  | none => .ok []
  | some actions => do
    let actions ← scanSlots actions maxArgs 0
    if envc = maxArgs then .error eInval else .ok actions

theorem checkActions_neg {envc : Nat} {actions : Option (Nat → UserSlot SpawnAction)}
    (h : checkActions envc actions = .error res) : res < 0 := by
  cases actions with
  | none => cases h
  | some actions =>
      rcases bind_error_iff.mp h with h | ⟨l, -, h⟩
      · exact scanSlots_neg h
      split at h
      · rw [← Except.error.inj h]
        decide
      · cases h

theorem validateArgs_neg (h : validateArgs args = .error res) : res < 0 := by
  have hinval : (Except.error eInval : Except Int (List SpawnAction)) =
      .error res → res < 0 := by
    intro hx
    rw [← Except.error.inj hx]
    decide
  obtain ⟨argv, envp, actions⟩ := args
  -- the checks from `envp` on
  have hrest : validateArgs ⟨none, envp, actions⟩ = .error res → res < 0 := by
    intro h
    cases envp with
    | none => exact checkActions_neg (show checkActions 0 actions = _ from h)
    | some envp =>
        change (scanSlots envp maxArgs 0 >>= _) = _ at h
        rcases bind_error_iff.mp h with h | ⟨l, -, h⟩
        · exact scanSlots_neg h
        split at h
        · exact hinval h
        · exact checkActions_neg h
  cases argv with
  | none => exact hrest h
  | some argv =>
      rcases bind_error_iff.mp h with h | ⟨l, -, h⟩
      · exact scanSlots_neg h
      split at h
      · exact hinval h
      · exact hrest h

/-- The task `add_task` makes, before it is linked. -/
def execTask (k : Kernel) (cr3 : Nat) (pid : Int) : Task :=
  { k.currentTask with state := .ready, inSignal := false, cr3 := cr3,
                       pid := pid }

/-- The ways `add_task` ends, from the state before the call. -/
theorem addTask_cases {pid : Int}
    (h : addTask env fuel k args parent pid new = .ok (res, k')) :
    (validateArgs args = .error res ∧ k' = k) ∨
      ∃ phys cr3, (res < 0 ∧ ¬Completes env args k new pid ∧
          AttrsOnly (allocTask k new phys (execTask k cr3 pid)) k') ∨
        ∃ p k₂, parent = some p ∧ res = pid ∧
          AttrsOnly (allocTask k new phys (execTask k cr3 pid)) k₂ ∧
          k' = linkTask k₂ new p := by
  rw [addTask] at h
  split at h
  · rename_i hargs
    obtain ⟨rfl, rfl⟩ := Prod.mk.inj (Except.ok.inj h)
    exact Or.inl ⟨hargs, rfl⟩
  rename_i actions hargs
  rw [bind_ok_iff] at h
  obtain ⟨k₁, hnew, h⟩ := h
  rw [bind_ok_iff] at h
  obtain ⟨⟨res', k₂⟩, hactions, h⟩ := h
  obtain ⟨cr3, phys, -, hk₁⟩ := newTask_ok hnew
  have hmade := AttrsOnly.of_filesOnly (FilesOnly.addRefs k.currentTask.fdTable
    (allocTask k new phys (execTask k cr3 pid)))
  rw [execTask, ← hk₁] at hmade
  have hfirst : AttrsOnly _ k₂ := hmade.trans (AttrsOnly.spawnActions hactions)
  refine Or.inr ⟨phys, cr3, ?_⟩
  dsimp only at h
  split at h
  · rename_i hres
    obtain ⟨rfl, rfl⟩ := Prod.mk.inj (Except.ok.inj h)
    refine Or.inl ⟨hres, fun hc => ?_, hfirst⟩
    exact absurd hres (not_lt.mpr
      ((hc actions hargs).2 k₁ fuel _ hnew hactions))
  have hclosed := hfirst.trans (.of_filesOnly
    (FilesOnly.closeOnExec env.closeEnv new k₂))
  rw [startTask, bind_ok_iff] at h
  obtain ⟨⟨res₂, program, k₃⟩, hload, h⟩ := h
  have hloaded := hclosed.trans (.loadProgram hload)
  dsimp only at h
  split at h
  · obtain ⟨rfl, rfl⟩ := Prod.mk.inj (Except.ok.inj h)
    exact Or.inl ⟨loadProgram_neg hload,
      fun hc => (hc actions hargs).1.loadProgram hload rfl, hloaded⟩
  split at h
  · cases h
  · obtain ⟨rfl, rfl⟩ := Prod.mk.inj (Except.ok.inj h)
    exact Or.inr ⟨_, _, rfl, rfl,
      hloaded.trans (.modifyTask _ _ fun _ => rfl), rfl⟩

/-- The other tasks keep all but their links and attributes. -/
theorem addTask_frame {pid : Int}
    (h : addTask env fuel k args parent pid new = .ok (res, k')) {α : Type}
    (π : Task → α) (ha : ∀ x a, π (Task.withAttrs x a) = π x)
    (hl : ∀ x l, π (Task.withLinks x l) = π x) {u : Nat} (hu : u ≠ new) :
    π (k'.tasks u) = π (k.tasks u) := by
  rcases addTask_cases h with ⟨-, rfl⟩ | ⟨phys, cr3, ⟨-, -, hattrs⟩ |
    ⟨p, k₂, -, -, hattrs, rfl⟩⟩
  · rfl
  · rw [hattrs.proj π ha, allocTask_ne k phys _ hu]
  · rw [(LinksOnly.linkTask k₂ new p).proj π hl, hattrs.proj π ha,
      allocTask_ne k phys _ hu]

theorem addTask_current {pid : Int}
    (h : addTask env fuel k args parent pid new = .ok (res, k')) :
    k'.current = k.current ∧ k'.switching = k.switching ∧
      k'.lastPid = k.lastPid := by
  rcases addTask_cases h with ⟨-, rfl⟩ | ⟨phys, cr3, ⟨-, -, hattrs⟩ |
    ⟨p, k₂, -, -, hattrs, rfl⟩⟩
  · exact ⟨rfl, rfl, rfl⟩
  · have hq := Quiet.of_attrsOnly hattrs
    exact ⟨hq.current, hq.switching, hq.lastPid⟩
  · have hq := Quiet.of_attrsOnly hattrs
    exact ⟨hq.current, hq.switching, hq.lastPid⟩

/-! ### New programs on the tree -/

/-- What `add_task` leaves when it succeeds. -/
structure Linked (k : Kernel) (ring : List Nat) (new p : Nat) (x : Task)
    (k' : Kernel) (ring' : List Nat) : Prop where
  mem : ∀ t, t ∈ ring' ↔ t = new ∨ t ∈ ring
  order : Ring k' ring'
  family : Family k' ring'
  waiters : Waiters k' ring'
  parent : ∀ u, (k'.tasks u).parent =
    if u = new then some p else (k.tasks u).parent
  proj : ∀ {α : Type} (π : Task → α), (∀ x a, π (Task.withAttrs x a) = π x) →
    (∀ x l, π (Task.withLinks x l) = π x) → ∀ u,
      π (k'.tasks u) = if u = new then π x else π (k.tasks u)
  allocated : k'.allocated = insert new k.allocated
  current : k'.current = k.current
  lastPid : k'.lastPid = k.lastPid

theorem Tree.linked (h : Tree k ring) {phys : PhysMem} {x : Task} {k₂ : Kernel}
    (hp : p ∈ ring) (hpar : Parental k p) (hnew : new ∉ k.allocated)
    (hidle : new ≠ idleTask) (huser : x.isKworker = false)
    (hready : x.state = .ready)
    (hattrs : AttrsOnly (GlitchedOS.allocTask k new phys x) k₂) :
    ∃ ring', Linked k ring new p x (GlitchedOS.linkTask k₂ new p) ring' := by
  have hout : new ∉ ring := fun hmem => hnew (h.order.allocated new hmem).1
  have hpne : p ≠ new := fun heq => hout (heq ▸ hp)
  have h₂ := (h.allocTask phys x hout hidle).of_attrsOnly hattrs
  have hq := Quiet.of_attrsOnly hattrs
  have halloc : k₂.allocated = insert new k.allocated := hq.allocated
  have hpar₂ : Parental k₂ p := by
    refine ⟨?_, hpar.alive.congr fun hd => ?_⟩
    · rw [hq.kworker, allocTask_ne k phys x hpne]
      exact hpar.user
    · rwa [(hq.life _).dead, allocTask_ne k phys x hpne] at hd
  obtain ⟨ring', hring, horder, hfamily, hwaiters⟩ := h₂.linkTask hp hpar₂ hout
    (halloc ▸ Finset.mem_insert_self _ _) hidle
    (by rw [hq.kworker, allocTask_new]; exact huser)
    (by rw [hattrs.proj Task.state fun _ _ => rfl, allocTask_new]; exact hready)
  refine ⟨ring', hring, horder, hfamily, hwaiters, fun u => ?_,
    fun π ha hl u => ?_, halloc, hq.current, hq.lastPid⟩
  · rw [linkTask_parent k₂ hpne.symm]
    split
    · rfl
    · rename_i hu
      rw [hattrs.proj Task.parent fun _ _ => rfl, allocTask_ne k phys x hu]
  · rw [(LinksOnly.linkTask k₂ new p).proj π hl, hattrs.proj π ha]
    split
    · rename_i hu
      rw [hu, allocTask_new]
    · rename_i hu
      rw [allocTask_ne k phys x hu]

/-- The tree after a step: in order, and if `complete` holds no task is newly out
of reach. -/
def GrowsTree (complete : Prop) (k : Kernel) (ring : List Nat) (k' : Kernel) :
    Prop :=
  ∃ ring', Tree k' ring' ∧ OldOrNew k ring ring' ∧
    (complete → ∀ u, Leaked k' ring' u → Leaked k ring u)

theorem KeepsTree.grows {complete : Prop} (h : KeepsTree k ring k') :
    GrowsTree complete k ring k' := by
  obtain ⟨ring', htree, hring, hleak⟩ := h
  exact ⟨ring', htree, hring, fun _ => hleak⟩

theorem GrowsTree.congr {complete : Prop} {k₁ k₂ : Kernel}
    (h : GrowsTree complete k₁ ring k₂) (hallocated : k₁.allocated = k.allocated)
    (hattrs : AttrsOnly k₂ k') : GrowsTree complete k ring k' := by
  obtain ⟨ring', htree, hring, hleak⟩ := h
  refine ⟨ring', htree.of_attrsOnly hattrs, fun u hu => hallocated ▸ hring u hu,
    fun hc u hu => ?_⟩
  have halloc := (Quiet.of_attrsOnly hattrs).allocated
  obtain ⟨hmem, hrest⟩ := hleak hc u ⟨halloc ▸ hu.1, hu.2⟩
  exact ⟨hallocated ▸ hmem, hrest⟩

theorem Linked.leaked {x : Task} (h : Linked k ring new p x k' ring') {u : Nat}
    (hu : Leaked k' ring' u) : Leaked k ring u := by
  obtain ⟨hmem, hidle, hout⟩ := hu
  rw [h.allocated, Finset.mem_insert] at hmem
  refine ⟨hmem.resolve_left fun heq => ?_, hidle, fun hu => ?_⟩
  · exact hout ((h.mem u).mpr (Or.inl heq))
  · exact hout ((h.mem u).mpr (Or.inr hu))

theorem Linked.oldOrNew {x : Task} (h : Linked k ring new p x k' ring')
    (hnew : new ∉ k.allocated) : OldOrNew k ring ring' := fun u hu =>
  ((h.mem u).mp hu).symm.imp_right fun (heq : u = new) =>
      heq ▸ hnew

/-- A new task that is the child of the running one. -/
theorem Tree.spawn (h : Tree k ring) (hl : Lively k)
    (huser : k.currentTask.isKworker = false) (halive : ¬k.currentTask.Dead)
    (hawake : k.currentTask.state ≠ .blocked) (hnew : new ∉ k.allocated)
    (hrun : GlitchedOS.spawn env fuel k args new = .ok (res, k')) :
    GrowsTree (Completes env args { k with lastPid := k.lastPid + 1 } new
      (k.lastPid + 1)) k ring k' ∧ Awake k' := by
  have hcur := h.current_mem hl huser
  have hidle : new ≠ idleTask := fun heq => hnew (heq ▸ hl.apart.allocated)
  have hout : new ∉ ring := fun hmem => hnew (h.order.allocated new hmem).1
  have hcne : k.current ≠ new := fun heq => hout (heq ▸ hcur)
  have h₀ : Tree { k with lastPid := k.lastPid + 1 } ring :=
    h.of_tasks rfl (Finset.Subset.refl _) h.order.rr h.order.current
      (Int.le_add_one (le_refl _))
  obtain ⟨k₁, hadd, hways⟩ := spawn_ok hrun
  have hcurrent := (addTask_current hadd).1
  have hstate : (k₁.tasks k.current).state = k.currentTask.state :=
    addTask_frame hadd Task.state (fun _ _ => rfl) (fun _ _ => rfl) hcne
  have hgrow : GrowsTree (Completes env args { k with lastPid := k.lastPid + 1 }
      new (k.lastPid + 1)) k ring k₁ := by
    rcases addTask_cases hadd with ⟨-, rfl⟩ | ⟨phys, cr3, ⟨-, hnot, hattrs⟩ |
      ⟨p, k₂, hp, hres, hattrs, rfl⟩⟩
    · exact ⟨ring, h₀, fun _ => Or.inl, fun _ u hu => hu⟩
    · refine ⟨ring, (h₀.allocTask _ _ hout hidle).of_attrsOnly hattrs,
        fun _ => Or.inl, ?_⟩
      exact fun hc => absurd hc hnot
    · obtain rfl := Option.some.inj hp
      obtain ⟨ring', hlink⟩ := h₀.linked (x := execTask
        { k with lastPid := k.lastPid + 1 } cr3 (k.lastPid + 1)) hcur
        (.of_alive huser halive) hnew hidle huser rfl hattrs
      have hpid := hlink.proj Task.pid (fun _ _ => rfl) fun _ _ => rfl
      have hkworker := hlink.proj Task.isKworker (fun _ _ => rfl) fun _ _ => rfl
      have hdel := hlink.proj Task.state (fun _ _ => rfl) fun _ _ => rfl
      have hne : ∀ t ∈ ring, t ≠ new := fun t ht heq => hout (heq ▸ ht)
      refine ⟨ring', ⟨hlink.order, hlink.family, ?_, hlink.waiters, ?_, ?_⟩,
        hlink.oldOrNew hnew, fun _ u hu => hlink.leaked hu⟩
      · have hlast := hlink.lastPid
        refine h₀.pids.insert hlink.mem (fun t ht => ?_) ?_ (fun t ht hd => ?_)
          hlink.lastPid.ge ?_ fun t ht _ => ?_
        · rw [hpid, if_neg (hne t ht)]
        · rw [hpid, if_neg hidle.symm]
        · rw [hdel, if_neg (hne t ht)]
          exact hd
        · have hinit := h.pids.bound _ h.order.init_mem
          rw [hpid, if_pos rfl, hlast]
          simp only [execTask]
          omega
        · have hbound := h.pids.bound t ht
          rw [hpid, hpid, if_neg (hne t ht), if_pos rfl]
          simp only [execTask]
          omega
      · rw [hkworker, if_neg (hne _ h.order.init_mem)]
        exact h.init
      · rw [hlink.parent, if_neg (hne _ h.order.init_mem)]
        exact h.initParent
  rcases hways with ⟨-, rfl⟩ | ⟨-, rfl⟩
  · refine ⟨hgrow, fun _ hb => hawake ?_⟩
    rw [← hstate, ← hcurrent]
    exact hb
  · obtain ⟨ring', htree, hring, hleak⟩ := hgrow
    have hdead : ¬(k₁.tasks k₁.current).Dead := by
      rw [Task.Dead, hcurrent, hstate]
      exact halive
    have hquiet : Quiet k₁ (k₁.modifyCurrent fun x =>
        { x with state := .ready, iframe := { x.iframe with rax := res } }) := by
      refine .modifyTask k₁ k₁.current (.of_alive hdead ?_) fun _ => ⟨rfl, rfl, rfl⟩
      exact Task.not_dead_of_state (s := .ready) rfl (by decide)
    have hready := htree.of_settles hquiet (.ready k₁ k₁.current rfl)
    exact ⟨⟨ring', hready.setSwitching true, hring, hleak⟩, .of_switching rfl⟩

theorem redirectWaiters_blocked {old : Nat} (hne : new ≠ old) :
    ∀ (l : List Nat) (k : Kernel) (t : Nat),
      ((redirectWaiters old new l k).tasks t).blockedProcess =
        if t ∈ l ∧ (k.tasks t).blockedProcess = some old then some new
        else (k.tasks t).blockedProcess
  | [], k, t => by simp [redirectWaiters]
  | u :: rest, k, t => by
      rw [redirectWaiters, redirectWaiters_blocked hne rest]
      by_cases hu : (k.tasks u).blockedProcess = some old
      · rw [if_pos hu, Kernel.modifyTask_apply]
        by_cases htu : t = u
        · subst htu
          simp [hu, hne]
        · simp [htu]
      · rw [if_neg hu]
        by_cases htu : t = u
        · subst htu
          simp [hu]
        · simp [htu]

/-- The state in which `execve` hands the children over. -/
structure Execed (k : Kernel) (ring : List Nat) (old new : Nat) (k' : Kernel) :
    Prop where
  links : ∀ u, (k'.tasks u).links = (k.tasks u).links
  kworker : ∀ u, (k'.tasks u).isKworker = (k.tasks u).isKworker
  pid : ∀ u, (k'.tasks u).pid = (k.tasks u).pid
  state : ∀ u, (k'.tasks u).state =
    if u = old then .deleted else (k.tasks u).state
  reason : ∀ u, (k'.tasks u).blockReason = (k.tasks u).blockReason
  blocked : ∀ u ∈ ring, (k'.tasks u).blockedProcess =
    if (k.tasks u).blockedProcess = some old then some new
    else (k.tasks u).blockedProcess
  allocated : k'.allocated = k.allocated
  rr : k'.rr = k.rr
  current : k'.current = k.current
  lastPid : k'.lastPid = k.lastPid

theorem Ring.execed (h : Ring k ring) {e : CloseEnv} {old : Nat}
    {l : List Nat} (hne : new ≠ old)
    (hl : GlitchedOS.ringFrom (k.modifyTask old fun x =>
      { x with state := .deleted }) fuel initTask = .ok l) :
    Execed k ring old new (releaseProcessFds e (redirectWaiters old new
      (l.tail ++ [initTask]) (k.modifyTask old fun x =>
        { x with state := .deleted }))) := by
  have hdel : ∀ {α : Type} (π : Task → α), (∀ x s, π { x with state := s } = π x) →
      ∀ u, π ((k.modifyTask old fun x => { x with state := .deleted }).tasks u) =
        π (k.tasks u) := fun π hπ u => Kernel.modifyTask_proj π _ _ _ (hπ _ _)
  have hring : Ring (k.modifyTask old fun x => { x with state := .deleted }) ring :=
    h.congr (fun u _ => hdel Task.next (fun _ _ => rfl) u) (Finset.Subset.refl _)
      rfl rfl
  obtain rfl := hring.ringFrom hl
  have hmem : ∀ u ∈ l, u ∈ l.tail ++ [initTask] := by
    intro u hu
    have hchain := h.chain
    cases l with
    | nil => cases hu
    | cons a rest =>
        obtain rfl := Option.some.inj hchain.1
        rw [List.tail_cons, List.mem_append, List.mem_singleton]
        exact (List.mem_cons.mp hu).symm
  generalize l.tail ++ [initTask] = walk at hmem ⊢
  obtain ⟨k₁, hk₁⟩ : ∃ k₁, k₁ = k.modifyTask old fun x =>
    { x with state := .deleted } := ⟨_, rfl⟩
  rw [← hk₁] at hdel ⊢
  have hfiles := FilesOnly.releaseProcessFds e (redirectWaiters old new walk k₁)
  have hq := (redirectWaiters_life old new walk k₁).trans
    (.of_attrsOnly (.of_filesOnly hfiles))
  have hkeep : ∀ {α : Type} (π : Task → α), (∀ x s, π { x with state := s } = π x) →
      (∀ x b, π { x with blockedProcess := b } = π x) →
      (∀ x table, π { x with fdTable := table } = π x) → ∀ u,
      π ((releaseProcessFds e (redirectWaiters old new walk k₁)).tasks u) =
        π (k.tasks u) := fun π hs hb hf u =>
    (hfiles.proj π hf u).trans ((redirectWaiters_proj π hb old new walk k₁
      u).trans (hdel π hs u))
  refine ⟨hkeep _ (fun _ _ => rfl) (fun _ _ => rfl) fun _ _ => rfl,
    hkeep _ (fun _ _ => rfl) (fun _ _ => rfl) fun _ _ => rfl,
    hkeep _ (fun _ _ => rfl) (fun _ _ => rfl) fun _ _ => rfl, fun u => ?_,
    hkeep _ (fun _ _ => rfl) (fun _ _ => rfl) fun _ _ => rfl, fun u hu => ?_,
    ?_, ?_, ?_, ?_⟩
  · rw [hfiles.proj Task.state fun _ _ => rfl, redirectWaiters_proj Task.state
      fun _ _ => rfl, hk₁, Kernel.modifyTask_apply]
    split <;> rfl
  · rw [hfiles.proj Task.blockedProcess fun _ _ => rfl,
      redirectWaiters_blocked hne, hdel Task.blockedProcess fun _ _ => rfl]
    simp [hmem u hu]
  · rw [hq.allocated, hk₁]
    rfl
  · rw [hq.rr, hk₁]
    rfl
  · rw [hq.current, hk₁]
    rfl
  · rw [hq.lastPid, hk₁]
    rfl

/-- The new task takes the place of `old`: its process number, the tasks that wait
for it, and its children. -/
theorem Tree.execed (h : Tree k ring) {old : Nat} {x : Task}
    {k₁ k₂ : Kernel} (hlink : Linked k ring new p x k₁ ring') (hold : old ∈ ring)
    (halive : ¬(k.tasks old).Dead) (hparent : (k.tasks old).parent = some p)
    (hnew : new ∉ ring) (hidle : new ≠ idleTask) (huser : x.isKworker = false)
    (hready : x.state = .ready) (hsame : x.pid = (k.tasks old).pid)
    (hexec : Execed k₁ ring' old new k₂)
    (hrun : reparent fuel k₂ new (k₂.tasks old).child = .ok k') :
    Tree k' ring' := by
  have hne : ∀ t ∈ ring, t ≠ new := fun t ht heq => hnew (heq ▸ ht)
  have hon : old ≠ new := hne old hold
  have hmem : new ∈ ring' := (hlink.mem new).mpr (Or.inl rfl)
  have hmem' : ∀ t ∈ ring, t ∈ ring' := fun t ht => (hlink.mem t).mpr (Or.inr ht)
  have hstate₁ := hlink.proj Task.state (fun _ _ => rfl) fun _ _ => rfl
  have hpid₁ := hlink.proj Task.pid (fun _ _ => rfl) fun _ _ => rfl
  have hkworker₁ := hlink.proj Task.isKworker (fun _ _ => rfl) fun _ _ => rfl
  have hnewAlive : ¬(k₁.tasks new).Dead := by
    refine Task.not_dead_of_state (s := .ready) ?_ (by decide)
    rw [hstate₁, if_pos rfl, hready]
  have holdAlive : ¬(k₁.tasks old).Dead := by
    rw [Task.Dead, hstate₁, if_neg hon]
    exact halive
  have hparentalNew : Parental k₁ new := by
    refine .of_alive ?_ hnewAlive
    rw [hkworker₁, if_pos rfl, huser]
  rw [show (k₂.tasks old).child = (k₁.tasks old).child from
    congrArg Links.child (hexec.links old)] at hrun
  obtain ⟨orphans, kids, stop, hnodup, horphans, hkids, hadopted⟩ :=
    hlink.family.adopted (hmem' old hold) holdAlive hmem (Or.inl hnewAlive) hon
      hexec.links hrun
  have honly := LinksOnly.reparent hrun
  have hkworker : ∀ u, (k'.tasks u).isKworker = (k₁.tasks u).isKworker := fun u =>
    (honly.proj Task.isKworker (fun _ _ => rfl) u).trans (hexec.kworker u)
  have hpid : ∀ u, (k'.tasks u).pid = (k₁.tasks u).pid := fun u =>
    (honly.proj Task.pid (fun _ _ => rfl) u).trans (hexec.pid u)
  have hstate : ∀ u, (k'.tasks u).state =
      if u = old then .deleted else (k₁.tasks u).state := fun u =>
    (honly.proj Task.state (fun _ _ => rfl) u).trans (hexec.state u)
  have hdead : ∀ u, (k'.tasks u).Dead ↔ u = old ∨ (k₁.tasks u).Dead := by
    intro u
    rw [Task.Dead, hstate]
    split
    · rename_i heq
      simp [heq]
    · rename_i hu
      simp [hu, Task.Dead]
  have hfields : k'.allocated = k₁.allocated ∧ k'.rr = k₁.rr ∧
      k'.current = k₁.current ∧ k'.lastPid = k₁.lastPid := by
    obtain ⟨_, rfl⟩ := honly
    exact ⟨hexec.allocated, hexec.rr, hexec.current, hexec.lastPid⟩
  refine ⟨?_, ?_, ?_, ?_, ?_, ?_⟩
  · exact hlink.order.congr (fun u _ => hadopted.next u) hfields.1.ge hfields.2.1
      hfields.2.2.1
  · exact hlink.family.adopt hmem hon hparentalNew hkworker hdead hnodup horphans
      hkids hadopted
  · have hpids : ∀ u, (k'.tasks u).pid =
        if u = new then x.pid else (k.tasks u).pid := fun u =>
      (hpid u).trans (hpid₁ u)
    have hlast : k'.lastPid = k.lastPid := hfields.2.2.2.trans hlink.lastPid
    refine h.pids.insert hlink.mem (fun t ht => ?_) ?_ (fun t ht hd => ?_) hlast.ge
      ?_ fun t ht htd heq => ?_
    · rw [hpids, if_neg (hne t ht)]
    · rw [hpids, if_neg hidle.symm]
    · rw [hstate, hstate₁, if_neg (hne t ht)]
      split
      · rfl
      · exact hd
    · rw [hpids, if_pos rfl, hsame, hlast]
      exact h.pids.bound old hold
    · rw [hpids, hpids, if_neg (hne t ht), if_pos rfl, hsame] at heq
      have hto : t ≠ old := by
        rintro rfl
        exact htd (by rw [hstate, if_pos rfl])
      rw [hstate, if_neg hto, hstate₁, if_neg (hne t ht)] at htd
      exact hto (h.pids.distinct t ht old hold htd
        (fun hd => halive (Or.inr hd)) heq)
  · intro u hu c hw
    have huold : u ≠ old := by
      rintro rfl
      have hs := hw.state
      rw [hstate, if_pos rfl] at hs
      cases hs
    have hws := hw.state
    rw [hstate, if_neg huold] at hws
    have hreason : (k₁.tasks u).blockReason = .waitpid :=
      ((honly.proj Task.blockReason (fun _ _ => rfl) u).trans
        (hexec.reason u)).symm.trans hw.reason
    have hchild := (honly.proj Task.blockedProcess (fun _ _ => rfl) u).symm.trans
      hw.child
    rw [hexec.blocked u hu] at hchild
    -- `u` waits for `old` and so now for `new`, or for a child that is left alone
    split at hchild
    · rename_i hwold
      obtain rfl := Option.some.inj hchild
      obtain ⟨hc, -⟩ := hlink.waiters u hu old ⟨hws, hreason, hwold⟩
      have hup : p = u := by
        have hpa := hc.parent
        rw [hlink.parent, if_neg hon, hparent] at hpa
        exact Option.some.inj hpa
      refine ⟨⟨hmem, ?_, ?_, ?_⟩, ?_⟩
      · rw [hkworker, hkworker₁, if_pos rfl, huser]
      · exact (hne _ h.order.init_mem).symm
      · rw [hadopted.parent, if_neg, hlink.parent, if_pos rfl, hup]
        intro hmem
        have hpa := ((horphans new).mp hmem).parent
        rw [hlink.parent, if_pos rfl, hup] at hpa
        exact huold (Option.some.inj hpa)
      · rw [hstate, if_neg hon.symm]
        exact fun hd => hnewAlive (Or.inr hd)
    · rename_i hwold
      obtain ⟨hc, hd⟩ := hlink.waiters u hu c ⟨hws, hreason, hchild⟩
      have hcold : c ≠ old := by
        rintro rfl
        exact hwold hchild
      refine ⟨⟨hc.mem, (hkworker c).trans hc.user, hc.ne_init, ?_⟩, ?_⟩
      · rw [hadopted.parent, if_neg, hc.parent]
        exact fun hmem => huold (Option.some.inj (hc.parent.symm.trans
          ((horphans c).mp hmem).parent))
      · rw [hstate, if_neg hcold]
        exact hd
  · rw [hkworker, hkworker₁, if_neg (hne _ h.order.init_mem)]
    exact h.init
  · rw [hadopted.parent, if_neg fun hmem => ((horphans _).mp hmem).ne_init rfl,
      hlink.parent, if_neg (hne _ h.order.init_mem)]
    exact h.initParent

theorem Tree.parent_mem (h : Tree k ring) {t : Nat} (ht : t ∈ ring)
    (huser : (k.tasks t).isKworker = false) (hp : (k.tasks t).parent = some p) :
    p ∈ ring ∧ Parental k p := by
  by_cases hinit : t = initTask
  · subst hinit
    obtain rfl := Option.some.inj (h.initParent.symm.trans hp)
    exact ⟨h.order.init_mem, h.parental_init⟩
  · obtain ⟨q, hq, heq, hpar⟩ := h.family.parent t ht huser hinit
    obtain rfl := Option.some.inj (heq.symm.trans hp)
    exact ⟨hq, hpar⟩

theorem Tree.execve (h : Tree k ring) (hl : Lively k)
    (huser : k.currentTask.isKworker = false) (halive : ¬k.currentTask.Dead)
    (hawake : k.currentTask.state ≠ .blocked) (hnew : new ∉ k.allocated)
    (hrun : GlitchedOS.execve env fuel k args new = .ok (res, k')) :
    GrowsTree (Completes env { args with actions := none } k new
      k.currentTask.pid) k ring k' ∧ Awake k' := by
  have hcur := h.current_mem hl huser
  have hidle : new ≠ idleTask := fun heq => hnew (heq ▸ hl.apart.allocated)
  have hout : new ∉ ring := fun hmem => hnew (h.order.allocated new hmem).1
  have hcne : k.current ≠ new := fun heq => hout (heq ▸ hcur)
  have hpos := (h.pids.bound _ hcur).1
  obtain ⟨k₁, hadd, hways⟩ := execve_ok hrun
  have hcurrent := (addTask_current hadd).1
  have hpid : (k₁.tasks k.current).pid = (k.tasks k.current).pid :=
    addTask_frame hadd Task.pid (fun _ _ => rfl) (fun _ _ => rfl) hcne
  have hstate : (k₁.tasks k.current).state = k.currentTask.state :=
    addTask_frame hadd Task.state (fun _ _ => rfl) (fun _ _ => rfl) hcne
  have hawake₁ : Awake k₁ := fun _ hb => hawake (by
    rw [← hstate, ← hcurrent]
    exact hb)
  rcases addTask_cases hadd with ⟨hargs, rfl⟩ | ⟨phys, cr3,
    ⟨hneg, hnot, hattrs⟩ | ⟨p, k₂, hp, hres, hattrs, rfl⟩⟩
  · rcases hways with ⟨-, rfl⟩ | ⟨heq, -⟩
    · exact ⟨⟨ring, h, fun _ => Or.inl, fun _ u hu => hu⟩, hawake₁⟩
    · have := validateArgs_neg hargs
      omega
  · rcases hways with ⟨-, rfl⟩ | ⟨heq, -⟩
    · exact ⟨⟨ring, (h.allocTask _ _ hout hidle).of_attrsOnly hattrs,
        fun _ => Or.inl, fun hc => absurd hc hnot⟩, hawake₁⟩
    · omega
  · obtain ⟨hpmem, hpar⟩ := h.parent_mem hcur huser hp
    obtain ⟨ring', hlink⟩ := h.linked (x := execTask k cr3 k.currentTask.pid) hpmem
      hpar hnew hidle huser rfl hattrs
    rcases hways with ⟨hne, -⟩ | ⟨-, l, k₃, k₄, hwalk, rfl, hk₄, hfinish⟩
    · exact absurd (hres.trans hpid.symm) hne
    obtain ⟨k₅, hrep, rfl⟩ := execveFinish_ok hfinish
    have hexec := hlink.order.execed (e := env.closeEnv) hcne.symm hwalk
    rw [← hk₄] at hexec
    clear hk₄
    have htree := h.execed hlink hcur halive hp hout hidle huser rfl rfl hexec hrep
    refine ⟨⟨ring', htree.setSwitching true, hlink.oldOrNew hnew,
      fun _ u hu => hlink.leaked ?_⟩, .of_switching rfl⟩
    have honly := LinksOnly.reparent hrep
    have halloc : k₅.allocated = (GlitchedOS.linkTask k₂ new p).allocated := by
      obtain ⟨_, rfl⟩ := honly
      exact hexec.allocated
    exact ⟨halloc ▸ hu.1, hu.2⟩

/-! ### Kernel workers -/

theorem Family.kworker (h : Family k ring) (hnew : new ∉ ring)
    (hring : ∀ t, t ∈ ring' ↔ t = new ∨ t ∈ ring)
    (hworker : (k'.tasks new).isKworker = true)
    (hchild : (k'.tasks new).child = none)
    (hkworker : ∀ t ∈ ring, (k'.tasks t).isKworker = (k.tasks t).isKworker)
    (hparent : ∀ t ∈ ring, (k'.tasks t).parent = (k.tasks t).parent)
    (hsibling : ∀ t ∈ ring, (k'.tasks t).nextSibling = (k.tasks t).nextSibling)
    (hchildren : ∀ t ∈ ring, (k'.tasks t).child = (k.tasks t).child)
    (hdead : ∀ t ∈ ring, (k'.tasks t).Dead ↔ (k.tasks t).Dead) :
    Family k' ring' := by
  have hold := h.congr hkworker hparent hsibling hchildren hdead
  have huser : ∀ t ∈ ring', (k'.tasks t).isKworker = false → t ∈ ring := by
    intro t ht hu
    refine ((hring t).mp ht).resolve_left ?_
    rintro rfl
    cases hworker.symm.trans hu
  have hmem : ∀ q c, IsChild k' ring' q c ↔ IsChild k' ring q c := by
    intro q c
    constructor
    · exact fun hc => ⟨huser c hc.mem hc.user, hc.user, hc.ne_init, hc.parent⟩
    · exact fun hc => ⟨(hring c).mpr (Or.inr hc.mem), hc.user, hc.ne_init,
        hc.parent⟩
  constructor
  · intro c hc hu hi
    obtain ⟨q, hq, heq, hpar⟩ := hold.parent c (huser c hc hu) hu hi
    exact ⟨q, (hring q).mpr (Or.inr hq), heq, hpar⟩
  · intro q hq hkeep
    rcases (hring q).mp hq with rfl | hq
    · refine ⟨[], none, hchild, List.nodup_nil, fun c => ?_, fun _ => rfl⟩
      refine iff_of_false List.not_mem_nil fun hc => ?_
      have hc := (hmem q c).mp hc
      obtain ⟨p, hp, heq, -⟩ := hold.parent c hc.mem hc.user hc.ne_init
      exact hnew (Option.some.inj (heq.symm.trans hc.parent) ▸ hp)
    · obtain ⟨kids, stop, hkids⟩ := hold.kids q hq hkeep
      exact ⟨kids, stop, hkids.segment, hkids.nodup,
        fun c => (hkids.mem c).trans (hmem q c).symm, hkids.alive⟩

theorem Tree.createKworker (h : Tree k ring) (hl : Lively k) {regs : Iframe}
    (hawake : k.currentTask.state ≠ .blocked) (hnew : new ∉ k.allocated)
    (hrun : GlitchedOS.createKworker k new regs = .ok k') :
    GrowsTree (k.current ≠ idleTask) k ring k' ∧ Awake k' := by
  have hidle : new ≠ idleTask := fun heq => hnew (heq ▸ hl.apart.allocated)
  have hout : new ∉ ring := fun hmem => hnew (h.order.allocated new hmem).1
  have hne : ∀ t ∈ ring, t ≠ new := fun t ht heq => hout (heq ▸ ht)
  have hcne : k.current ≠ new := by
    rcases h.order.current with hc | hc
    · exact hne _ hc
    · rw [hc]
      exact hidle.symm
  obtain ⟨cr3, phys, -, rfl⟩ := createKworker_ok hrun
  obtain ⟨k₁, hk₁⟩ : ∃ k₁, k₁ = GlitchedOS.allocTask
    { k with lastPid := k.lastPid + 1 } new phys (kworkerTask k cr3 regs) :=
    ⟨_, rfl⟩
  have hnewTask : k₁.tasks new = kworkerTask k cr3 regs := by
    rw [hk₁, allocTask_new]
  have hother : ∀ u, u ≠ new → k₁.tasks u = k.tasks u := fun u hu => by
    rw [hk₁, allocTask_ne _ _ _ hu]
  have hfields : k₁.allocated = insert new k.allocated ∧ k₁.rr = k.rr ∧
      k₁.current = k.current ∧ k₁.lastPid = k.lastPid + 1 := by
    rw [hk₁]
    exact ⟨rfl, rfl, rfl, rfl⟩
  rw [← hk₁]
  clear hk₁
  have hkeep : ∀ {α : Type} (π : Task → α), (∀ x n, π { x with next := n } = π x) →
      ∀ u, u ≠ new → π ((k₁.modifyTask k.current fun x =>
        { x with next := new }).tasks u) = π (k.tasks u) := fun π hπ u hu =>
    (Kernel.modifyTask_proj π _ _ _ (hπ _ _)).trans (by rw [hother u hu])
  have hmade : ∀ {α : Type} (π : Task → α), (∀ x n, π { x with next := n } = π x) →
      π ((k₁.modifyTask k.current fun x => { x with next := new }).tasks new) =
        π (kworkerTask k cr3 regs) := fun π hπ =>
    (Kernel.modifyTask_proj π _ _ _ (hπ _ _)).trans (by rw [hnewTask])
  have hlast : k.lastPid ≤ k₁.lastPid := by
    rw [hfields.2.2.2]
    omega
  have hin : new ∈ k₁.allocated := by
    rw [hfields.1]
    exact Finset.mem_insert_self _ _
  have hsub : k.allocated ⊆ k₁.allocated := by
    rw [hfields.1]
    exact Finset.subset_insert _ _
  refine ⟨?_, fun _ hb => hawake ?_⟩
  swap
  · refine (hkeep Task.state (fun _ _ => rfl) k.current hcne).symm.trans ?_
    rw [Kernel.currentTask, Kernel.modifyTask_current, hfields.2.2.1] at hb
    exact hb
  rcases h.order.current with hcur | hcur
  · have hinsert : ∃ ring', Ring (k₁.modifyTask k.current fun x =>
        { x with next := new }) ring' ∧ ∀ t, t ∈ ring' ↔ t = new ∨ t ∈ ring := by
      refine h.order.insert hcur hout hidle ?_ ?_ (fun t ht htc => ?_) hsub hin
        hfields.2.1 hfields.2.2.1
      · rw [Kernel.modifyTask_self]
      · rw [Kernel.modifyTask_ne _ _ hcne.symm, hnewTask]
        rfl
      · rw [Kernel.modifyTask_ne _ _ htc, hother t (hne t ht)]
    obtain ⟨ring', horder, hring⟩ := hinsert
    have hring₀ : ∀ {α : Type} (π : Task → α),
        (∀ x n, π { x with next := n } = π x) → ∀ u ∈ ring,
        π ((k₁.modifyTask k.current fun x => { x with next := new }).tasks u) =
          π (k.tasks u) := fun π hπ u hu => hkeep π hπ u (hne u hu)
    have hstate := hring₀ Task.state fun _ _ => rfl
    refine ⟨ring', ⟨horder, ?_, ?_, ?_, ?_, ?_⟩, fun u hu => ?_, fun _ u hu => ?_⟩
    · refine h.family.kworker hout hring (hmade Task.isKworker fun _ _ => rfl)
        (hmade Task.child fun _ _ => rfl) (hring₀ Task.isKworker fun _ _ => rfl)
        (hring₀ Task.parent fun _ _ => rfl) (hring₀ Task.nextSibling fun _ _ => rfl)
        (hring₀ Task.child fun _ _ => rfl) fun t ht => ?_
      rw [Task.Dead, Task.Dead, hstate t ht]
    · have hpidNew := hmade Task.pid fun _ _ => rfl
      have hlast' : (k₁.modifyTask k.current fun x =>
          { x with next := new }).lastPid = k.lastPid + 1 := hfields.2.2.2
      refine h.pids.insert hring (hring₀ Task.pid fun _ _ => rfl)
        (hkeep Task.pid (fun _ _ => rfl) _ hidle.symm)
        (fun t ht hd => (hstate t ht).trans hd) hlast ?_ fun t ht _ => ?_
      · have hinit := h.pids.bound _ h.order.init_mem
        rw [hpidNew, hlast']
        simp only [kworkerTask]
        omega
      · have hbound := h.pids.bound t ht
        rw [hpidNew, hring₀ Task.pid (fun _ _ => rfl) t ht]
        simp only [kworkerTask]
        omega
    · intro t ht c hw
      have htnew : t ≠ new := by
        rintro rfl
        cases (hmade Task.state fun _ _ => rfl).symm.trans hw.state
      have htmem := ((hring t).mp ht).resolve_left htnew
      have hw₀ : Waits (k.tasks t) c :=
        ⟨(hstate t htmem).symm.trans hw.state,
          (hring₀ Task.blockReason (fun _ _ => rfl) t htmem).symm.trans hw.reason,
          (hring₀ Task.blockedProcess (fun _ _ => rfl) t htmem).symm.trans hw.child⟩
      obtain ⟨hc, hd⟩ := h.waiters t htmem c hw₀
      refine ⟨⟨(hring c).mpr (Or.inr hc.mem), ?_, hc.ne_init, ?_⟩, ?_⟩
      · exact (hring₀ Task.isKworker (fun _ _ => rfl) c hc.mem).trans hc.user
      · exact (hring₀ Task.parent (fun _ _ => rfl) c hc.mem).trans hc.parent
      · rw [hstate c hc.mem]
        exact hd
    · exact (hring₀ Task.isKworker (fun _ _ => rfl) _ h.order.init_mem).trans h.init
    · exact (hring₀ Task.parent (fun _ _ => rfl) _ h.order.init_mem).trans
        h.initParent
    · exact ((hring u).mp hu).symm.imp_right fun (heq : u = new) =>
      heq ▸ hnew
    · obtain ⟨hmem, huidle, hunot⟩ := hu
      rw [show (k₁.modifyTask k.current fun x => { x with next := new }).allocated =
        insert new k.allocated from hfields.1, Finset.mem_insert] at hmem
      refine ⟨hmem.resolve_left fun heq => ?_, huidle, fun hu => ?_⟩
      · exact hunot ((hring u).mpr (Or.inl heq))
      · exact hunot ((hring u).mpr (Or.inr hu))
  · refine ⟨ring, h.of_ring (fun t ht => ?_) ?_ hsub ?_ ?_ hlast, fun _ => Or.inl,
      fun hc => ?_⟩
    · have htc : t ≠ k.current := fun heq =>
        (h.order.allocated t ht).2 (heq.trans hcur)
      rw [Kernel.modifyTask_ne _ _ htc, hother t (hne t ht)]
    · exact hkeep Task.pid (fun _ _ => rfl) _ hidle.symm
    · exact hfields.2.1 ▸ h.order.rr
    · exact Or.inr (hfields.2.2.1.trans hcur)
    · exact absurd hcur hc

end GlitchedOS
