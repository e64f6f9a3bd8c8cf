/-
A terminated task does not run again.  The idle task is on no child list and has
no parent, so it never exits, and whatever runs is alive; a task that has ended
is then changed by nothing but a stop signal sent to it while it is a zombie.
-/
import GlitchedOS.Process.Frame

namespace GlitchedOS

variable {k k' k'' : Kernel}
variable {fuel new t : Nat} {f : Task → Task} {pid : Int} {ring : List Nat} {env : CloseEnv}

/-- The task has ended: it is a zombie, or waits for `gc_tasks`. -/
def Task.Dead (x : Task) : Prop := x.state = .zombie ∨ x.state = .deleted

theorem Task.not_dead_of_state {x : Task} {s : ProcessState} (h : x.state = s)
    (hs : s ≠ .zombie ∧ s ≠ .deleted) : ¬x.Dead := by
  rintro (hz | hd)
  · exact hs.1 (h ▸ hz)
  · exact hs.2 (h ▸ hd)

/-! ### The idle task -/

/-- No list of children leads to the idle task, and it has no parent. -/
structure IdleApart (k : Kernel) : Prop where
  allocated : idleTask ∈ k.allocated
  kworker : (k.tasks idleTask).isKworker = true
  parent : (k.tasks idleTask).parent = none
  child : ∀ t, (k.tasks t).child ≠ some idleTask
  sibling : ∀ t, (k.tasks t).nextSibling ≠ some idleTask

namespace IdleApart

theorem of_proj (h : IdleApart k) (hallocated : idleTask ∈ k'.allocated)
    (hkworker : (k'.tasks idleTask).isKworker = (k.tasks idleTask).isKworker)
    (hparent : (k'.tasks idleTask).parent = (k.tasks idleTask).parent)
    (hchild : ∀ t, (k'.tasks t).child = (k.tasks t).child)
    (hsibling : ∀ t, (k'.tasks t).nextSibling = (k.tasks t).nextSibling) :
    IdleApart k' where
  allocated := hallocated
  kworker := hkworker.trans h.kworker
  parent := hparent.trans h.parent
  child := fun t => hchild t ▸ h.child t
  sibling := fun t => hsibling t ▸ h.sibling t

theorem of_tasks (h : IdleApart k) (htasks : k'.tasks = k.tasks)
    (hallocated : k'.allocated = k.allocated) : IdleApart k' :=
  h.of_proj (hallocated ▸ h.allocated) (by rw [htasks]) (by rw [htasks])
    (fun t => by rw [htasks]) fun t => by rw [htasks]

theorem of_attrsOnly (h : IdleApart k) (hattrs : AttrsOnly k k') :
    IdleApart k' := by
  have hallocated : k'.allocated = k.allocated := by
    obtain ⟨_, _, _, _, _, _, _, _, rfl⟩ := hattrs
    rfl
  exact h.of_proj (hallocated ▸ h.allocated)
    (hattrs.proj Task.isKworker (fun _ _ => rfl) _)
    (hattrs.proj Task.parent (fun _ _ => rfl) _)
    (hattrs.proj Task.child fun _ _ => rfl)
    (hattrs.proj Task.nextSibling fun _ _ => rfl)

theorem modifyTask (h : IdleApart k) (t : Nat)
    (hf : ∀ x, (f x).isKworker = x.isKworker ∧ (f x).links = x.links) :
    IdleApart (k.modifyTask t f) := by
  have hlinks : ∀ u, ((k.modifyTask t f).tasks u).links = (k.tasks u).links :=
    fun u => k.modifyTask_proj Task.links t u (hf _).2
  exact h.of_proj h.allocated
    (k.modifyTask_proj Task.isKworker t _ (hf _).1)
    (congrArg Links.parent (hlinks _))
    (fun u => congrArg Links.child (hlinks u))
    (fun u => congrArg Links.nextSibling (hlinks u))

theorem modifyLinks (h : IdleApart k) (t : Nat)
    (hkworker : ∀ x, (f x).isKworker = x.isKworker)
    (hparent : t = idleTask → (f (k.tasks t)).parent = (k.tasks t).parent)
    (hchild : (f (k.tasks t)).child ≠ some idleTask)
    (hsibling : (f (k.tasks t)).nextSibling ≠ some idleTask) :
    IdleApart (k.modifyTask t f) where
  allocated := h.allocated
  kworker := (k.modifyTask_proj Task.isKworker t _ (hkworker _)).trans h.kworker
  parent := by
    rw [Kernel.modifyTask_apply]
    split
    · rename_i heq
      rw [heq, hparent heq.symm, ← heq]
      exact h.parent
    · exact h.parent
  child := fun u => by
    rw [Kernel.modifyTask_apply]
    split
    · rename_i heq
      rw [heq]
      exact hchild
    · exact h.child u
  sibling := fun u => by
    rw [Kernel.modifyTask_apply]
    split
    · rename_i heq
      rw [heq]
      exact hsibling
    · exact h.sibling u

theorem reparent : ∀ {n : Nat} {k : Kernel} {target : Nat} {c : Option Nat},
    IdleApart k → c ≠ some idleTask →
      GlitchedOS.reparent n k target c = .ok k' → IdleApart k'
  | n, k, target, none, h, _, hrun => by
      obtain rfl : k = k' := by
        cases n <;> exact Except.ok.inj hrun
      exact h
  | 0, _, _, some _, _, _, hrun => by cases hrun
  | n + 1, k, target, some c, h, hc, hrun => by
      rw [GlitchedOS.reparent] at hrun
      have hne : c ≠ idleTask := fun heq => hc (congrArg some heq)
      have hfirst := h.modifyLinks c (f := fun x =>
        { x with parent := some target, nextSibling := (k.tasks target).child })
        (fun _ => rfl) (fun heq => absurd heq hne) (h.child c) (h.child target)
      have hsecond := hfirst.modifyLinks target
        (f := fun x => { x with child := some c }) (fun _ => rfl) (fun _ => rfl)
        (fun heq => hne (Option.some.inj heq)) (hfirst.sibling target)
      exact reparent hsecond (h.sibling c) hrun

theorem linkTask (h : IdleApart k) {parent : Nat} (hnew : new ≠ idleTask) :
    IdleApart (GlitchedOS.linkTask k new parent) := by
  have h₁ := h.modifyLinks new (f := fun x =>
    { x with next := (k.tasks parent).next })
    (fun _ => rfl) (fun _ => rfl) (h.child new) (h.sibling new)
  have h₂ := h₁.modifyLinks parent (f := fun x => { x with next := new })
    (fun _ => rfl) (fun _ => rfl) (h₁.child parent) (h₁.sibling parent)
  have h₃ := h₂.modifyLinks new (f := fun x =>
    { x with nextSibling := _, child := none, parent := some parent })
    (fun _ => rfl) (fun heq => absurd heq hnew) (Option.some_ne_none _).symm
    (h₂.child parent)
  exact h₃.modifyLinks parent (f := fun x => { x with child := some new })
    (fun _ => rfl) (fun _ => rfl) (fun heq => hnew (Option.some.inj heq))
    (h₃.sibling parent)

theorem siblingLoop (h : IdleApart k) : ∀ {n s : Nat},
    GlitchedOS.siblingLoop k t n s = .ok k' → IdleApart k'
  | 0, _, hrun => by cases hrun
  | n + 1, s, hrun => by
      rw [GlitchedOS.siblingLoop] at hrun
      split at hrun
      · obtain rfl := Except.ok.inj hrun
        exact h
      split at hrun
      · obtain rfl := Except.ok.inj hrun
        exact h.modifyLinks s (fun _ => rfl) (fun _ => rfl) (h.child s)
          (h.sibling t)
      · exact siblingLoop h hrun

theorem unlinkChild (h : IdleApart k)
    (hrun : GlitchedOS.unlinkChild fuel k t = .ok k') : IdleApart k' := by
  rw [GlitchedOS.unlinkChild] at hrun
  split at hrun
  · cases hrun
  rename_i parent _
  split at hrun
  · obtain rfl := Except.ok.inj hrun
    exact h.modifyLinks parent (fun _ => rfl) (fun _ => rfl) (h.sibling t)
      (h.sibling parent)
  split at hrun
  · cases hrun
  · exact h.siblingLoop hrun

theorem allocTask (h : IdleApart k) {phys : PhysMem} {x : Task}
    (hnew : new ≠ idleTask) (hchild : x.child ≠ some idleTask)
    (hsibling : x.nextSibling ≠ some idleTask) :
    IdleApart (GlitchedOS.allocTask k new phys x) := by
  have hidle : (GlitchedOS.allocTask k new phys x).tasks idleTask =
      k.tasks idleTask := Function.update_of_ne hnew.symm _ _
  refine ⟨Finset.mem_insert_of_mem h.allocated, hidle ▸ h.kworker,
    hidle ▸ h.parent, fun t => ?_, fun t => ?_⟩
  · by_cases ht : t = new
    · subst ht
      simpa [GlitchedOS.allocTask] using hchild
    · simpa [GlitchedOS.allocTask, ht] using h.child t
  · by_cases ht : t = new
    · subst ht
      simpa [GlitchedOS.allocTask] using hsibling
    · simpa [GlitchedOS.allocTask, ht] using h.sibling t

end IdleApart

/-! ### Life -/

/-- The same tasks have ended. -/
def SameLife (k k' : Kernel) : Prop :=
  ∀ t, (k'.tasks t).Dead ↔ (k.tasks t).Dead

namespace SameLife

theorem trans (h : SameLife k k') (h' : SameLife k' k'') : SameLife k k'' :=
  fun t => (h' t).trans (h t)

theorem of_state (h : ∀ t, (k'.tasks t).state = (k.tasks t).state) :
    SameLife k k' := fun t => by
  rw [Task.Dead, Task.Dead, h t]

theorem of_attrsOnly (h : AttrsOnly k k') : SameLife k k' :=
  of_state (h.proj Task.state fun _ _ => rfl)

theorem of_linksOnly (h : LinksOnly k k') : SameLife k k' :=
  of_state (h.proj Task.state fun _ _ => rfl)

theorem modifyTask (k : Kernel) (t : Nat) (h : (f (k.tasks t)).Dead ↔ (k.tasks t).Dead) :
    SameLife k (k.modifyTask t f) := fun u => by
  rw [Kernel.modifyTask_apply]
  split
  · rename_i heq
    rw [heq]
    exact h
  · exact Iff.rfl

theorem modifyAlive (halive : ¬(k.tasks t).Dead)
    (h : ¬(f (k.tasks t)).Dead) : SameLife k (k.modifyTask t f) :=
  modifyTask k t (iff_of_false h halive)

end SameLife

/-- The running task is alive, and so is the idle task. -/
structure Lively (k : Kernel) : Prop where
  apart : IdleApart k
  idle : ¬(k.tasks idleTask).Dead
  current : k.switching = false → ¬k.currentTask.Dead

/-- What an operation does to the living and the dead: those that have ended stay
so, and the running task is alive. -/
structure KeepsDead (k k' : Kernel) : Prop where
  lively : Lively k'
  dead : ∀ t ∈ k.allocated, (k.tasks t).Dead → (k'.tasks t).Dead

namespace KeepsDead

theorem of_sameLife (h : Lively k) (hlife : SameLife k k')
    (hapart : IdleApart k') (hcurrent : k'.switching = false →
      k.switching = false ∧ k'.current = k.current) : KeepsDead k k' where
  lively :=
    { apart := hapart
      idle := fun hdead => h.idle ((hlife _).mp hdead)
      current := fun hs hdead => by
        obtain ⟨hs', hc⟩ := hcurrent hs
        rw [Kernel.currentTask, hc] at hdead
        exact h.current hs' ((hlife _).mp hdead) }
  dead := fun t _ hdead => (hlife t).mpr hdead

theorem of_attrsOnly (h : Lively k) (hattrs : AttrsOnly k k') :
    KeepsDead k k' := by
  refine of_sameLife h (.of_attrsOnly hattrs) (h.apart.of_attrsOnly hattrs) ?_
  obtain ⟨_, _, _, _, _, _, _, _, rfl⟩ := hattrs
  exact fun hs => ⟨hs, rfl⟩

theorem trans (h : KeepsDead k k') (h' : KeepsDead k' k'')
    (hallocated : k.allocated ⊆ k'.allocated) : KeepsDead k k'' where
  lively := h'.lively
  dead := fun t ht hdead => h'.dead t (hallocated ht) (h.dead t ht hdead)

end KeepsDead

/-- A write to a task that neither ends nor revives it. -/
structure LifeKept (x y : Task) : Prop where
  dead : y.Dead ↔ x.Dead
  deleted : x.state = .deleted → y.state = .deleted

theorem LifeKept.of_state {x y : Task} (h : y.state = x.state) :
    LifeKept x y where
  dead := by rw [Task.Dead, Task.Dead, h]
  deleted := fun hdeleted => h.trans hdeleted

theorem LifeKept.of_alive {x y : Task} (hx : ¬x.Dead) (hy : ¬y.Dead) :
    LifeKept x y where
  dead := iff_of_false hy hx
  deleted := fun hdeleted => absurd (Or.inr hdeleted) hx

/-- An operation that moves no task and ends none. -/
structure Quiet (k k' : Kernel) : Prop where
  life : ∀ t, LifeKept (k.tasks t) (k'.tasks t)
  links : ∀ t, (k'.tasks t).links = (k.tasks t).links
  kworker : ∀ t, (k'.tasks t).isKworker = (k.tasks t).isKworker
  pid : ∀ t, (k'.tasks t).pid = (k.tasks t).pid
  current : k'.current = k.current
  rr : k'.rr = k.rr
  lastPid : k'.lastPid = k.lastPid
  switching : k'.switching = k.switching
  allocated : k'.allocated = k.allocated

namespace Quiet

theorem refl (k : Kernel) : Quiet k k :=
  ⟨fun _ => .of_state rfl, fun _ => rfl, fun _ => rfl, fun _ => rfl, rfl, rfl,
    rfl, rfl, rfl⟩

theorem trans (h : Quiet k k') (h' : Quiet k' k'') : Quiet k k'' where
  life := fun t => ⟨(h'.life t).dead.trans (h.life t).dead,
    fun hd => (h'.life t).deleted ((h.life t).deleted hd)⟩
  links := fun t => (h'.links t).trans (h.links t)
  kworker := fun t => (h'.kworker t).trans (h.kworker t)
  pid := fun t => (h'.pid t).trans (h.pid t)
  current := h'.current.trans h.current
  rr := h'.rr.trans h.rr
  lastPid := h'.lastPid.trans h.lastPid
  switching := h'.switching.trans h.switching
  allocated := h'.allocated.trans h.allocated

theorem sameLife (h : Quiet k k') : SameLife k k' := fun t => (h.life t).dead

theorem of_attrsOnly (h : AttrsOnly k k') : Quiet k k' := by
  refine ⟨fun t => .of_state (h.proj Task.state (fun _ _ => rfl) t),
    h.proj Task.links fun _ _ => rfl, h.proj Task.isKworker fun _ _ => rfl,
    h.proj Task.pid fun _ _ => rfl, ?_, ?_, ?_, ?_, ?_⟩
  all_goals
    obtain ⟨_, _, _, _, _, _, _, _, rfl⟩ := h
    rfl

theorem of_pendingOnly (h : PendingOnly k k') : Quiet k k' := by
  refine ⟨fun t => .of_state (h.proj Task.state (fun _ _ => rfl) t),
    h.proj Task.links fun _ _ => rfl, h.proj Task.isKworker fun _ _ => rfl,
    h.proj Task.pid fun _ _ => rfl, ?_, ?_, ?_, ?_, ?_⟩
  all_goals
    obtain ⟨_, rfl⟩ := h
    rfl

theorem modifyTask (k : Kernel) (t : Nat) (hlife : LifeKept (k.tasks t) (f (k.tasks t)))
    (hf : ∀ x, (f x).isKworker = x.isKworker ∧ (f x).pid = x.pid ∧
      (f x).links = x.links) :
    Quiet k (k.modifyTask t f) where
  life := fun u => by
    rw [Kernel.modifyTask_apply]
    split
    · rename_i heq
      rw [heq]
      exact hlife
    · exact .of_state rfl
  links := fun u => k.modifyTask_proj Task.links t u (hf _).2.2
  kworker := fun u => k.modifyTask_proj Task.isKworker t u (hf _).1
  pid := fun u => k.modifyTask_proj Task.pid t u (hf _).2.1
  current := rfl
  rr := rfl
  lastPid := rfl
  switching := rfl
  allocated := rfl

theorem apart (h : Quiet k k') (hapart : IdleApart k) : IdleApart k' :=
  hapart.of_proj (h.allocated ▸ hapart.allocated) (h.kworker _)
    (congrArg Links.parent (h.links _))
    (fun t => congrArg Links.child (h.links t))
    (fun t => congrArg Links.nextSibling (h.links t))

theorem keepsDead (h : Quiet k k') (hlively : Lively k) : KeepsDead k k' :=
  .of_sameLife hlively h.sameLife (h.apart hlively.apart) fun hs =>
    ⟨h.switching.symm.trans hs, h.current⟩

theorem andThen (h : Quiet k k') (h' : KeepsDead k' k'') : KeepsDead k k'' where
  lively := h'.lively
  dead := fun t ht hdead =>
    h'.dead t (h.allocated.symm ▸ ht) ((h.life t).dead.mpr hdead)

end Quiet

theorem KeepsDead.quiet (h : KeepsDead k k') (h' : Quiet k' k'') :
    KeepsDead k k'' where
  lively := (h'.keepsDead h.lively).lively
  dead := fun t ht hdead => (h'.life t).dead.mpr (h.dead t ht hdead)

/-! ### Garbage collection -/

/-- `gc_tasks` keeps every state, and the running task when it is alive. -/
theorem gcLoop_life : ∀ {n p t : Nat} {k : Kernel}, IdleApart k →
    ¬(k.tasks idleTask).Dead → gcLoop n k p t = .ok k' →
    IdleApart k' ∧ (∀ u, (k'.tasks u).state = (k.tasks u).state) ∧
      k'.switching = k.switching ∧
      (¬k.currentTask.Dead → k'.current = k.current)
  | 0, _, _, _, _, _, h => by cases h
  | n + 1, p, t, k, hapart, hidle, h => by
      rcases gcLoop_cases h with ⟨-, rfl⟩ | ⟨-, -, h⟩ | ⟨-, hdel, k₁, hunlink, h⟩
      · exact ⟨hapart, fun _ => rfl, rfl, fun _ => rfl⟩
      · exact gcLoop_life hapart hidle h
      have hcut : IdleApart (cutTask k p t) := by
        have hphys := hapart.of_attrsOnly
          (.setPhys k (freePageTables k.phys (k.tasks t).cr3))
        exact hphys.modifyLinks p (fun _ => rfl) (fun _ => rfl)
          (hapart.child p) (hapart.sibling p)
      have hcutState : ∀ u, ((cutTask k p t).tasks u).state =
          (k.tasks u).state := fun u =>
        Kernel.modifyTask_proj Task.state _ p u rfl
      obtain ⟨hapart₁, hstate₁, hs₁, hc₁⟩ : IdleApart k₁ ∧
          (∀ u, (k₁.tasks u).state = (k.tasks u).state) ∧
          k₁.switching = k.switching ∧ k₁.current = k.current := by
        split at hunlink
        · subst hunlink
          exact ⟨hcut, hcutState, rfl, rfl⟩
        · have hlinks := LinksOnly.unlinkChild hunlink
          refine ⟨hcut.unlinkChild hunlink, fun u =>
            (hlinks.proj Task.state (fun _ _ => rfl) u).trans (hcutState u), ?_⟩
          obtain ⟨_, rfl⟩ := hlinks
          exact ⟨rfl, rfl⟩
      have hidle₁ : ¬(k₁.tasks idleTask).Dead := by
        rw [Task.Dead, hstate₁]
        exact hidle
      have htidle : t ≠ idleTask := by
        rintro rfl
        exact hidle (Or.inr hdel)
      have hdrop : IdleApart (dropTask k₁ t) :=
        hapart₁.of_proj (Finset.mem_erase.mpr ⟨htidle.symm, hapart₁.allocated⟩)
          rfl rfl (fun _ => rfl) fun _ => rfl
      obtain ⟨hapart', hstate', hs', hc'⟩ := gcLoop_life hdrop hidle₁ h
      refine ⟨hapart', fun u => (hstate' u).trans (hstate₁ u), hs'.trans hs₁, ?_⟩
      intro halive
      have hne : k₁.current ≠ t := by
        rintro heq
        rw [hc₁] at heq
        exact halive (Or.inr (by rw [Kernel.currentTask, heq]; exact hdel))
      have hcdrop : (dropTask k₁ t).current = k.current := by
        rw [dropTask, if_neg hne]
        exact hc₁
      refine (hc' ?_).trans hcdrop
      rw [Kernel.currentTask, hcdrop]
      intro hdead
      have hdead₁ : (k₁.tasks k.current).Dead := hdead
      rw [Task.Dead, hstate₁] at hdead₁
      exact halive hdead₁

theorem runNext_sameLife (h : Lively k) (hs : ¬k.currentTask.Dead)
    (hrun : runNext fuel k = .ok k') :
    SameLife k k' ∧ IdleApart k' ∧ k'.switching = true := by
  rw [runNext, bind_ok_iff] at hrun
  obtain ⟨k₁, hgc, hrun⟩ := hrun
  obtain rfl := Except.ok.inj hrun
  have hready : ¬(if (k.tasks k.current).state = .running then
      { k.tasks k.current with state := .ready }
      else k.tasks k.current).Dead := by
    split
    · exact Task.not_dead_of_state (s := .ready) rfl (by decide)
    · exact hs
  have hlife := SameLife.modifyAlive hs hready
  have hapart : IdleApart (k.modifyCurrent fun x =>
      if x.state = .running then { x with state := .ready } else x) :=
    h.apart.modifyTask _ fun x => by
      split
      · exact ⟨rfl, rfl⟩
      · exact ⟨rfl, rfl⟩
  obtain ⟨hapart₁, hstate, -, -⟩ := gcLoop_life hapart
    (fun hdead => h.idle ((hlife _).mp hdead)) hgc
  exact ⟨hlife.trans (.of_state hstate), hapart₁.of_tasks rfl rfl, rfl⟩

theorem runNext_life (h : Lively k) (hs : ¬k.currentTask.Dead)
    (hrun : runNext fuel k = .ok k') : KeepsDead k k' := by
  obtain ⟨hlife, hapart, hswitch⟩ := runNext_sameLife h hs hrun
  exact .of_sameLife h hlife hapart fun hfalse => by
    cases hswitch.symm.trans hfalse

/-! ### Exit and signals -/

theorem exit_life {ret : Int} (h : Lively k)
    (hrun : exit env fuel k ret = .ok k') : KeepsDead k k' := by
  obtain ⟨k₁, -, hk₁, hrun⟩ := exit_ok hrun
  have hfiles : Quiet k k₁ := by
    rw [hk₁]
    exact .of_attrsOnly (.of_filesOnly (.releaseProcessFds env k))
  clear hk₁
  obtain ⟨parent, k₂, hparent, hrep, rfl⟩ := exitTask_ok hrun
  have hapart := hfiles.apart h.apart
  have hne : k₁.current ≠ idleTask := by
    intro heq
    rw [Kernel.currentTask, heq, hapart.parent] at hparent
    cases hparent
  have hzombie := hapart.modifyTask k₁.current (f := fun x =>
    { x with state := .zombie, returnCode := ret }) fun _ => ⟨rfl, rfl⟩
  have htold := hzombie.modifyTask parent (f := fun x =>
    { x with pendingSignals := x.pendingSignals ||| sigBit sigChld })
    fun _ => ⟨rfl, rfl⟩
  have hdead : ∀ u, (k₂.tasks u).Dead ↔ u = k₁.current ∨ (k.tasks u).Dead := by
    intro u
    rw [← (hfiles.life u).dead, Task.Dead,
      (LinksOnly.reparent hrep).proj Task.state (fun _ _ => rfl),
      Kernel.modifyTask_proj Task.state _ _ _ (by rfl), Kernel.modifyCurrent,
      Kernel.modifyTask_apply]
    split
    · rename_i heq
      simp [heq]
    · rename_i hu
      simp [hu, Task.Dead]
  refine ⟨⟨?_, ?_, fun hs => by cases hs⟩, fun t _ ht => (hdead t).mpr (Or.inr ht)⟩
  · exact (htold.reparent (hapart.child _) hrep).of_tasks rfl rfl
  · intro hidle
    exact ((hdead _).mp hidle).elim (fun heq => hne heq.symm) h.idle

theorem deliverSignals_life (h : Lively k)
    (hrun : deliverSignals env fuel k = .ok k') : KeepsDead k k' := by
  obtain ⟨p, f, g, b, hrun⟩ := deliverSignals_ok hrun
  have hquiet : Quiet k (k.modifyCurrent (·.withSignals p f g b)) :=
    .modifyTask k k.current (.of_state rfl) fun _ => ⟨rfl, rfl, rfl⟩
  have hsignals := hquiet.keepsDead h
  rcases hrun with rfl | ⟨-, ret, hexit⟩
  · exact hsignals
  · exact hquiet.andThen (exit_life hsignals.lively hexit)

theorem switchTask_life (h : Lively k)
    (hrun : switchTask env fuel k = .ok k') : KeepsDead k k' := by
  obtain ⟨next, rr, hloop, hrun⟩ := switchTask_ok hrun
  have halive : ¬(k.tasks (next.getD idleTask)).Dead := by
    cases next with
    | none => exact h.idle
    | some t => exact Task.not_dead_of_state (nextLoop_ready hloop) (by decide)
  generalize next.getD idleTask = t at halive hrun
  have hlife : SameLife k (chooseTask k t rr) :=
    SameLife.modifyAlive halive (f := fun x => { x with state := .running })
      (Task.not_dead_of_state (s := .running) rfl (by decide))
  have hapart := h.apart.modifyTask t (f := fun x => { x with state := .running })
    fun _ => ⟨rfl, rfl⟩
  have hrunning : KeepsDead k (chooseTask k t rr) :=
    ⟨⟨hapart.of_tasks rfl rfl, fun hdead => h.idle ((hlife _).mp hdead),
      fun _ hdead => halive ((hlife t).mp hdead)⟩,
      fun t _ ht => (hlife t).mpr ht⟩
  exact hrunning.trans (deliverSignals_life hrunning.lively hrun)
    (Finset.Subset.refl _)

/-- A signal keeps the living alive, and the dead when it does not stop them. -/
theorem signalTask_life (t sig : Nat)
    (h : (k.tasks t).Dead → stops (k.tasks t) sig = false) :
    Quiet k (signalTask k t sig) := by
  refine .trans ?_ (.of_pendingOnly (signalTask_pending k t sig))
  refine .modifyTask k t ?_ fun x => ?_
  · rw [Task.signalled]
    split
    · rename_i hstop
      refine .of_alive (fun hdead => ?_) (Task.not_dead_of_state
        (s := .stopped) rfl (by decide))
      rw [h hdead] at hstop
      cases hstop
    split
    · rename_i hcont
      exact .of_alive (Task.not_dead_of_state hcont.2 (by decide))
        (Task.not_dead_of_state (s := .ready) rfl (by decide))
    · exact .of_state rfl
  · rw [Task.signalled]
    split
    · exact ⟨rfl, rfl, rfl⟩
    split <;> exact ⟨rfl, rfl, rfl⟩

/-- The tasks of `ring` that have terminated are not stopped by the signal. -/
def sparesZombies (k : Kernel) (ring : List Nat) (pid : Int) (sig : Nat) :
    Prop :=
  ∀ t ∈ ring, (k.tasks t).state = .zombie → killTarget k pid t = true →
    stops (k.tasks t) sig = false

theorem sparesZombies_signalTask {sig : Nat} (h : sparesZombies k ring pid sig) (t : Nat) :
    sparesZombies (signalTask k t sig) ring pid sig := by
  intro u hu hzombie htarget
  rw [killTarget_signalTask] at htarget
  have hbefore := signalTask_zombie hzombie
  have hstops := h u hu hbefore htarget
  rw [stops, hbefore] at hstops
  rwa [stops, hzombie, signalTask_proj Task.signalHandlers (fun _ _ => rfl)
    fun _ _ _ _ => rfl]

theorem killLoop_life {sig : Nat} : ∀ {ring : List Nat}
    {k : Kernel}, sparesZombies k ring pid sig →
      Quiet k (killLoop pid sig ring k).2
  | [], k, _ => .refl k
  | t :: rest, k, h => by
      have hrest : sparesZombies k rest pid sig := fun u hu =>
        h u (List.mem_cons_of_mem t hu)
      rw [killLoop]
      split
      · rename_i htarget
        rw [Bool.and_eq_true, decide_eq_true_eq] at htarget
        refine .trans (signalTask_life t sig fun hdead => ?_)
          (killLoop_life (sparesZombies_signalTask hrest t))
        exact h t List.mem_cons_self (hdead.resolve_right htarget.2) htarget.1
      · exact killLoop_life hrest

theorem raise_life (h : ¬k.currentTask.Dead) (sig : Nat) :
    Quiet k (raise k sig).2 := by
  rw [raise]
  split
  · exact .refl k
  · exact signalTask_life k.current sig fun hdead => absurd hdead h

/-! ### Waiting -/

theorem waitEvent_zombie {x : Task} {flags : BitVec 32}
    (h : waitEvent x flags = some .terminated) : x.state = .zombie := by
  rw [waitEvent] at h
  split at h
  · assumption
  split at h
  · cases h
  split at h <;> cases h

theorem consumeEvent_life {child : Nat} {flags : BitVec 32} {event : WaitEvent}
    (h : waitEvent (k.tasks child) flags = some event) :
    Quiet k (consumeEvent k child event) := by
  have hreset : Quiet k (k.modifyTask child fun x =>
      { x with waitpidEvent := 0 }) :=
    .modifyTask k child (.of_state rfl) fun _ => ⟨rfl, rfl, rfl⟩
  cases event with
  | terminated =>
      have hzombie := waitEvent_zombie h
      exact .modifyTask k child (f := fun x => { x with state := .deleted })
        ⟨iff_of_true (Or.inr rfl) (Or.inl hzombie), fun _ => rfl⟩
        fun _ => ⟨rfl, rfl, rfl⟩
  | stopped => exact hreset
  | continued => exact hreset

theorem storeStatus_tasks (k : Kernel) (cr3 : Nat) (wstatus : Option Nat)
    (word : BitVec 32) : (storeStatus k cr3 wstatus word).tasks = k.tasks := by
  cases wstatus <;> rfl

theorem report_life {child : Nat} {flags : BitVec 32} {event : WaitEvent}
    (h : waitEvent (k.tasks child) flags = some event) (cr3 : Nat)
    (wstatus : Option Nat) (word : BitVec 32) :
    Quiet k (consumeEvent (storeStatus k cr3 wstatus word) child event) := by
  have hevent : waitEvent ((storeStatus k cr3 wstatus word).tasks child) flags =
      some event := by
    rw [storeStatus_tasks]
    exact h
  exact (Quiet.of_attrsOnly (.storeStatus k cr3 wstatus word)).trans
    (consumeEvent_life hevent)

theorem unblock_life (h : ¬(k.tasks t).Dead) (rax : Int) :
    Quiet k (unblock k t rax) :=
  .modifyTask k t (.of_alive h (Task.not_dead_of_state (s := .ready) rfl
    (by decide))) fun _ => ⟨rfl, rfl, rfl⟩

theorem checkDelay_life {reduceTicks : Bool}
    (h : ¬(k.tasks t).Dead) : Quiet k (checkDelay reduceTicks k t) := by
  have hready : ∀ {k' : Kernel}, ¬(k'.tasks t).Dead → Quiet k' (k'.modifyTask t
      fun x => { x with state := .ready, blockReason := .none }) := fun h =>
    .modifyTask _ t (.of_alive h (Task.not_dead_of_state (s := .ready) rfl
      (by decide))) fun _ => ⟨rfl, rfl, rfl⟩
  have hticks : ∀ (k' : Kernel) (f : Task → BitVec 64), Quiet k' (k'.modifyTask t
      fun x => { x with blockedTicks := f x }) := fun k' _ =>
    .modifyTask k' t (.of_state rfl) fun _ => ⟨rfl, rfl, rfl⟩
  have halive : ∀ {k' : Kernel}, Quiet k k' → ¬(k'.tasks t).Dead :=
    fun hq hdead => h ((hq.life t).dead.mp hdead)
  rw [checkDelay]
  generalize hk₁ : (if reduceTicks = true then k.modifyTask t fun x =>
    { x with blockedTicks := x.blockedTicks - 1#64 } else k) = k₁
  have hquiet₁ : Quiet k k₁ := by
    rw [← hk₁]
    split
    · exact hticks k fun x => x.blockedTicks - 1#64
    · exact .refl k
  generalize hk₂ : (if (k₁.tasks t).blockedTicks = 0#64 then k₁.modifyTask t
    fun x => { x with state := .ready, blockReason := .none } else k₁) = k₂
  have hquiet₂ : Quiet k k₂ := by
    rw [← hk₂]
    split
    · exact hquiet₁.trans (hready (halive hquiet₁))
    · exact hquiet₁
  split
  · exact (hquiet₂.trans (unblock_life (halive hquiet₂) _)).trans
      (hticks _ fun _ => 0#64)
  · exact hquiet₂

theorem checkWaitChild_life {child : Nat} (h : ¬(k.tasks t).Dead) :
    Quiet k (checkWaitChild k t child).2 := by
  have hclear : ∀ {k' : Kernel} {rax : Int}, Quiet k k' →
      Quiet k ((unblock k' t rax).modifyTask t fun x =>
        { x with blockedProcess := none }) := fun hq =>
    (hq.trans (unblock_life (fun hdead => h ((hq.life t).dead.mp hdead)) _)).trans
      (.modifyTask _ t (.of_state rfl) fun _ => ⟨rfl, rfl, rfl⟩)
  rw [checkWaitChild]
  dsimp only
  split
  · rename_i event hevent
    exact hclear (report_life hevent _ _ _)
  split
  · exact hclear (.refl k)
  · exact .refl k

theorem checkWaitAny_life {report : Option (Nat × WaitEvent)} (h : ¬(k.tasks t).Dead)
    (hrun : checkWaitAny fuel k t = .ok (report, k')) : Quiet k k' := by
  rw [checkWaitAny] at hrun
  dsimp only at hrun
  rw [bind_ok_iff] at hrun
  obtain ⟨target, -, hrun⟩ := hrun
  split at hrun
  · obtain ⟨-, rfl⟩ := Prod.mk.inj (Except.ok.inj hrun)
    split
    · exact unblock_life h _
    · exact .refl k
  rename_i child
  split at hrun
  · obtain ⟨-, rfl⟩ := Prod.mk.inj (Except.ok.inj hrun)
    exact .refl k
  rename_i event hevent
  obtain ⟨-, rfl⟩ := Prod.mk.inj (Except.ok.inj hrun)
  have hstore : ∀ word, Quiet k (storeStatus k (k.tasks t).cr3
      (k.tasks t).wstatus word) := fun word =>
    .of_attrsOnly (.storeStatus k _ _ word)
  have hconsume : ∀ word, Quiet k (consumeEvent (storeStatus k (k.tasks t).cr3
      (k.tasks t).wstatus word) child event) := report_life hevent _ _
  split
  · exact (hstore _).trans
      (unblock_life (fun hdead => h (((hstore _).life t).dead.mp hdead)) _)
  · exact (hconsume _).trans
      (unblock_life (fun hdead => h (((hconsume _).life t).dead.mp hdead)) _)

theorem checkBlockedTask_life {reduceTicks : Bool} {report : Option (Nat × WaitEvent)}
    (hrun : checkBlockedTask fuel reduceTicks k t = .ok (report, k')) :
    Quiet k k' := by
  rw [checkBlockedTask] at hrun
  split at hrun
  · obtain ⟨-, rfl⟩ := Prod.mk.inj (Except.ok.inj hrun)
    exact .refl _
  rename_i hblocked
  have halive : ¬(k.tasks t).Dead :=
    Task.not_dead_of_state (not_not.mp hblocked) (by decide)
  split at hrun
  · obtain ⟨-, rfl⟩ := Prod.mk.inj (Except.ok.inj hrun)
    exact .refl _
  · obtain ⟨-, rfl⟩ := Prod.mk.inj (Except.ok.inj hrun)
    exact checkDelay_life halive
  · split at hrun
    · rename_i child _
      have hquiet : Quiet k (checkWaitChild k t child).2 :=
        checkWaitChild_life halive
      rw [Except.ok.inj hrun] at hquiet
      exact hquiet
    · exact checkWaitAny_life halive hrun

theorem checkBlockedLoop_life {reduceTicks : Bool} :
    ∀ {ring : List Nat} {k k' : Kernel} {reports : List (Nat × WaitEvent)},
      checkBlockedLoop fuel reduceTicks ring k = .ok (reports, k') → Quiet k k'
  | [], k, _, _, hrun => by
      obtain ⟨-, rfl⟩ := Prod.mk.inj (Except.ok.inj hrun)
      exact .refl k
  | t :: rest, k, _, _, hrun => by
      rw [checkBlockedLoop, bind_ok_iff] at hrun
      obtain ⟨⟨report, k₁⟩, hone, hrun⟩ := hrun
      dsimp only at hrun
      rw [bind_ok_iff] at hrun
      obtain ⟨⟨reports, k₂⟩, hrest, hrun⟩ := hrun
      obtain ⟨-, rfl⟩ := Prod.mk.inj (Except.ok.inj hrun)
      exact (checkBlockedTask_life hone).trans (checkBlockedLoop_life hrest)

/-- Giving up the processor after a write to the running task. -/
theorem block_life (h : Lively k)
    (halive : ¬k.currentTask.Dead) (hblocked : ¬(f k.currentTask).Dead)
    (hf : ∀ x, (f x).isKworker = x.isKworker ∧ (f x).pid = x.pid ∧
      (f x).links = x.links)
    (hrun : runNext fuel (k.modifyCurrent f) = .ok k') :
    KeepsDead k k' ∧ SameLife k k' := by
  have hquiet : Quiet k (k.modifyCurrent f) :=
    .modifyTask k k.current (.of_alive halive hblocked) hf
  have hlively := (hquiet.keepsDead h).lively
  have halive₁ : ¬(k.modifyCurrent f).currentTask.Dead := fun hdead =>
    halive ((hquiet.life k.current).dead.mp hdead)
  exact ⟨hquiet.andThen (runNext_life hlively halive₁ hrun),
    hquiet.sameLife.trans (runNext_sameLife hlively halive₁ hrun).1⟩

theorem sysWaitpid_life {wstatus : Option Nat}
    {options : BitVec 32} {reports : List (Nat × WaitEvent)} (h : Lively k)
    (halive : ¬k.currentTask.Dead)
    (hrun : sysWaitpid fuel k pid wstatus options = .ok (reports, k')) :
    KeepsDead k k' ∧ SameLife k k' := by
  have henter := Quiet.of_attrsOnly (.enterSyscall k 53)
  rw [sysWaitpid, bind_ok_iff] at hrun
  generalize enterSyscall k 53 = k₁ at henter hrun
  have halive₁ : ¬k₁.currentTask.Dead := by
    rw [Kernel.currentTask, henter.current]
    exact fun hdead => halive ((henter.life _).dead.mp hdead)
  have hboth : ∀ {k₂ : Kernel}, Quiet k k₂ → KeepsDead k k₂ ∧ SameLife k k₂ :=
    fun hq => ⟨hq.keepsDead h, hq.sameLife⟩
  obtain ⟨⟨r, k₂⟩, hwait, hrun⟩ := hrun
  rcases waitpid_ok hwait with ⟨ret, -, rfl, rfl⟩ |
      ⟨child, event, -, hevent, rfl, rfl⟩ | ⟨rfl, target, -, hnext⟩
  · obtain ⟨-, rfl⟩ := Prod.mk.inj (Except.ok.inj hrun)
    exact hboth (henter.trans (.of_attrsOnly (.enterSyscall _ _)))
  · obtain ⟨-, rfl⟩ := Prod.mk.inj (Except.ok.inj hrun)
    exact hboth ((henter.trans (report_life hevent _ _ _)).trans
      (.of_attrsOnly (.enterSyscall _ _)))
  · obtain ⟨-, rfl⟩ := Prod.mk.inj (Except.ok.inj hrun)
    have hblock : KeepsDead k₁ k₂ ∧ SameLife k₁ k₂ := by
      refine block_life (henter.keepsDead h).lively halive₁ ?_ ?_ hnext
      · exact Task.not_dead_of_state (s := .blocked) rfl (by decide)
      · exact fun _ => ⟨rfl, rfl, rfl⟩
    obtain ⟨hkept, hlife⟩ := hblock
    exact ⟨henter.andThen hkept, henter.sameLife.trans hlife⟩

theorem sleep_life {ms : BitVec 64} (h : Lively k)
    (halive : ¬k.currentTask.Dead) (hrun : sleep fuel k ms = .ok k') :
    KeepsDead k k' ∧ SameLife k k' := by
  rw [sleep] at hrun
  split at hrun
  · obtain rfl := Except.ok.inj hrun
    have hq := Quiet.of_attrsOnly (.enterSyscall k 0)
    exact ⟨hq.keepsDead h, hq.sameLife⟩
  · refine block_life h halive ?_ ?_ hrun
    · exact Task.not_dead_of_state (s := .blocked) rfl (by decide)
    · exact fun _ => ⟨rfl, rfl, rfl⟩

/-! ### New tasks -/

/-- A task is allocated and the running one keeps its life. -/
theorem KeepsDead.of_new (h : Lively k) (hnew : new ∉ k.allocated)
    (halive : ¬k.currentTask.Dead) (hapart : IdleApart k')
    (hstate : ∀ u, u ≠ new → u ≠ k.current →
      ((k'.tasks u).Dead ↔ (k.tasks u).Dead))
    (hcurrent : ¬(k'.tasks k.current).Dead)
    (hsame : k'.current = k.current) : KeepsDead k k' := by
  have hidle : new ≠ idleTask := fun heq => hnew (heq ▸ h.apart.allocated)
  refine ⟨⟨hapart, ?_, fun _ => ?_⟩, fun t ht hdead => ?_⟩
  · by_cases hc : idleTask = k.current
    · rw [hc]
      exact hcurrent
    · exact fun hdead => h.idle ((hstate _ hidle.symm hc).mp hdead)
  · rw [Kernel.currentTask, hsame]
    exact hcurrent
  · have htnew : t ≠ new := fun heq => hnew (heq ▸ ht)
    have htcur : t ≠ k.current := by
      rintro rfl
      exact halive hdead
    exact (hstate t htnew htcur).mpr hdead

theorem fork_life (h : Lively k) (halive : ¬k.currentTask.Dead)
    (hnew : new ∉ k.allocated) (hrun : fork k new = .ok k') :
    KeepsDead k k' := by
  obtain ⟨cr3, phys, k₁, -, hk₁, rfl⟩ := fork_ok hrun
  have hidle : new ≠ idleTask := fun heq => hnew (heq ▸ h.apart.allocated)
  have hrefs := Quiet.of_attrsOnly (.of_filesOnly (.addRefs
    k.currentTask.fdTable (allocTask k new phys
      { k.currentTask with state := .ready, cr3 := cr3 })))
  rw [← hk₁] at hrefs
  clear hk₁
  have hapart₁ := hrefs.apart (h.apart.allocTask hidle (h.apart.child _)
    (h.apart.sibling _))
  have hcur : k₁.current = k.current := hrefs.current
  have hdead : ∀ u, ((forkLink k₁ new).tasks u).Dead ↔
      u ≠ k₁.current ∧ (k₁.tasks u).Dead := by
    intro u
    rw [Task.Dead, forkLink_state]
    split
    · rename_i heq
      simp [heq]
    · rename_i hne
      simp [hne, Task.Dead]
  refine .of_new h hnew halive ?_ (fun u hu hc => ?_) ?_ hcur
  · have hlinks := forkLink_proj Task.links (fun _ _ _ _ => rfl) k₁ new
    exact (hapart₁.linkTask hidle).of_proj hapart₁.allocated
      (forkLink_proj Task.isKworker (fun _ _ _ _ => rfl) k₁ new _)
      (congrArg Links.parent (hlinks _))
      (fun u => congrArg Links.child (hlinks u))
      (fun u => congrArg Links.nextSibling (hlinks u))
  · rw [hdead u, hcur, (hrefs.life u).dead, allocTask_ne k phys _ hu]
    exact ⟨And.right, fun hd => ⟨hc, hd⟩⟩
  · exact fun hd => ((hdead _).mp hd).1 hcur.symm

theorem newTask_life (hapart : IdleApart k)
    (hnew : new ≠ idleTask) (hrun : newTask k new pid = .ok k') :
    IdleApart k' ∧ (∀ u, u ≠ new → ((k'.tasks u).Dead ↔ (k.tasks u).Dead)) ∧
      ¬(k'.tasks new).Dead ∧ k'.current = k.current := by
  obtain ⟨cr3, phys, -, hk'⟩ := newTask_ok hrun
  have hrefs := Quiet.of_attrsOnly (.of_filesOnly (.addRefs
    k.currentTask.fdTable (allocTask k new phys
      { k.currentTask with state := .ready, inSignal := false, cr3 := cr3,
                           pid := pid })))
  rw [← hk'] at hrefs
  clear hk'
  refine ⟨hrefs.apart (hapart.allocTask hnew (hapart.child _)
    (hapart.sibling _)), fun u hu => ?_, ?_, hrefs.current⟩
  · rw [(hrefs.life u).dead, allocTask_ne k phys _ hu]
  · rw [(hrefs.life new).dead, allocTask_new]
    exact Task.not_dead_of_state (s := .ready) rfl (by decide)

/-- `add_task` makes one living task, or nothing. -/
theorem addTask_life {env : ExecEnv} {args : ExecArgs}
    {parent : Option Nat} {res : Int} (hapart : IdleApart k)
    (halive : ¬k.currentTask.Dead) (hnew : new ≠ idleTask)
    (hrun : addTask env fuel k args parent pid new = .ok (res, k')) :
    IdleApart k' ∧ (∀ u, u ≠ new → ((k'.tasks u).Dead ↔ (k.tasks u).Dead)) ∧
      ¬k'.currentTask.Dead ∧ k'.current = k.current := by
  rcases addTask_ok hrun with ⟨-, rfl⟩ | ⟨actions, k₁, -, hmade, hrest⟩
  · exact ⟨hapart, fun _ _ => Iff.rfl, halive, rfl⟩
  obtain ⟨hapart₁, hlife₁, hnew₁, hcur₁⟩ := newTask_life hapart hnew hmade
  have halive₁ : ¬k₁.currentTask.Dead := by
    rw [Kernel.currentTask, hcur₁]
    by_cases hc : k.current = new
    · rw [hc]
      exact hnew₁
    · exact fun hdead => halive ((hlife₁ _ hc).mp hdead)
  have hquiet : ∀ {k₂ : Kernel}, AttrsOnly k₁ k₂ →
      IdleApart k₂ ∧ (∀ u, u ≠ new → ((k₂.tasks u).Dead ↔ (k.tasks u).Dead)) ∧
        ¬k₂.currentTask.Dead ∧ k₂.current = k.current := by
    intro k₂ hattrs
    have hq := Quiet.of_attrsOnly hattrs
    refine ⟨hq.apart hapart₁, fun u hu => (hq.life u).dead.trans (hlife₁ u hu), ?_,
      hq.current.trans hcur₁⟩
    rw [Kernel.currentTask, hq.current]
    exact fun hdead => halive₁ ((hq.life _).dead.mp hdead)
  rcases hrest with hattrs | ⟨p, k₂, -, -, hattrs, rfl⟩
  · exact hquiet hattrs
  · obtain ⟨hapart₂, hlife₂, halive₂, hcur₂⟩ := hquiet hattrs
    have hlink := SameLife.of_linksOnly (LinksOnly.linkTask k₂ new p)
    exact ⟨hapart₂.linkTask hnew, fun u hu => (hlink u).trans (hlife₂ u hu),
      fun hdead => halive₂ ((hlink _).mp hdead), hcur₂⟩

theorem sysSpawn_life {env : ExecEnv} {pathRes : Int}
    {args : ExecArgs} (h : Lively k) (halive : ¬k.currentTask.Dead)
    (hnew : new ∉ k.allocated)
    (hrun : sysSpawn env fuel k pathRes args new = .ok k') :
    KeepsDead k k' := by
  have hidle : new ≠ idleTask := fun heq => hnew (heq ▸ h.apart.allocated)
  have henter := Quiet.of_attrsOnly (.enterSyscall k 54)
  rw [sysSpawn] at hrun
  generalize enterSyscall k 54 = k₁ at henter hrun
  have halive₁ : ¬k₁.currentTask.Dead := by
    rw [Kernel.currentTask, henter.current]
    exact fun hdead => halive ((henter.life _).dead.mp hdead)
  dsimp only at hrun
  split at hrun
  · obtain rfl := Except.ok.inj hrun
    exact (henter.trans (.of_attrsOnly (.enterSyscall _ _))).keepsDead h
  rw [bind_ok_iff] at hrun
  obtain ⟨⟨res, k₂⟩, hspawn, hrun⟩ := hrun
  have hkept := henter.keepsDead h
  have hspawned : KeepsDead k₁ k₂ := by
    obtain ⟨k₃, hadd, hways⟩ := spawn_ok hspawn
    obtain ⟨hapart₃, hlife₃, halive₃, hcur₃⟩ := addTask_life
      (k := { k₁ with lastPid := k₁.lastPid + 1 })
      (hkept.lively.apart.of_tasks rfl rfl) halive₁ hidle hadd
    have hnew₁ : new ∉ k₁.allocated := henter.allocated ▸ hnew
    have hcurrent₃ : ¬(k₃.tasks k₁.current).Dead := by
      have hcur : k₃.current = k₁.current := hcur₃
      rw [← hcur]
      exact halive₃
    rcases hways with ⟨-, rfl⟩ | ⟨-, rfl⟩
    · exact .of_new hkept.lively hnew₁ halive₁ hapart₃
        (fun u hu _ => hlife₃ u hu) hcurrent₃ hcur₃
    · have hready : Quiet k₃ (k₃.modifyCurrent fun x =>
          { x with state := .ready, iframe := { x.iframe with rax := res } }) :=
        .modifyTask k₃ k₃.current (.of_alive halive₃
          (Task.not_dead_of_state (s := .ready) rfl (by decide)))
          fun _ => ⟨rfl, rfl, rfl⟩
      refine .of_new hkept.lively hnew₁ halive₁
        ((hready.apart hapart₃).of_tasks rfl rfl)
        (fun u hu _ => (hready.life u).dead.trans (hlife₃ u hu)) ?_ hcur₃
      exact fun hdead => hcurrent₃ ((hready.life _).dead.mp hdead)
  obtain rfl := Except.ok.inj hrun
  split
  · exact henter.andThen hspawned
  · exact (henter.andThen hspawned).quiet (.of_attrsOnly (.enterSyscall k₂ res))

theorem redirectWaiters_life (old new : Nat) (l : List Nat) (k : Kernel) :
    Quiet k (redirectWaiters old new l k) := by
  induction l generalizing k with
  | nil => exact .refl k
  | cons t rest ih =>
      rw [redirectWaiters]
      refine .trans ?_ (ih _)
      split
      · exact .modifyTask k t (.of_state rfl) fun _ => ⟨rfl, rfl, rfl⟩
      · exact .refl k

theorem execve_life {env : ExecEnv} {args : ExecArgs}
    {res : Int} (h : Lively k) (halive : ¬k.currentTask.Dead)
    (hkworker : k.currentTask.isKworker = false) (hnew : new ∉ k.allocated)
    (hrun : execve env fuel k args new = .ok (res, k')) : KeepsDead k k' := by
  have hidle : new ≠ idleTask := fun heq => hnew (heq ▸ h.apart.allocated)
  have hcidle : k.current ≠ idleTask := by
    intro heq
    rw [Kernel.currentTask, heq, h.apart.kworker] at hkworker
    cases hkworker
  obtain ⟨k₁, hadd, hways⟩ := execve_ok hrun
  obtain ⟨hapart₁, hlife₁, halive₁, hcur₁⟩ :=
    addTask_life h.apart halive hidle hadd
  have hcurrent₁ : ¬(k₁.tasks k.current).Dead := by
    rw [← hcur₁]
    exact halive₁
  rcases hways with ⟨-, rfl⟩ | ⟨-, ring, k₂, k₃, -, hk₂, hk₃, hfinish⟩
  · exact .of_new h hnew halive hapart₁ (fun u hu _ => hlife₁ u hu) hcurrent₁
      hcur₁
  -- the old task is deleted; everything after keeps every state
  have hwait : Quiet (k₁.modifyTask k.current fun x =>
      { x with state := .deleted }) k₃ := by
    have hredirect := redirectWaiters_life k.current new
      (ring.tail ++ [initTask]) (k₁.modifyTask k.current fun x =>
        { x with state := .deleted })
    rw [← hk₂] at hredirect
    rw [hk₃]
    exact hredirect.trans (.of_attrsOnly (.of_filesOnly
      (.releaseProcessFds env.closeEnv k₂)))
  clear hk₂ hk₃
  have hapart₃ := hwait.apart (hapart₁.modifyTask k.current fun _ => ⟨rfl, rfl⟩)
  obtain ⟨k₄, hrep, rfl⟩ := execveFinish_ok hfinish
  have hdead : ∀ u, (k₄.tasks u).Dead ↔ u = k.current ∨ (k₁.tasks u).Dead := by
    intro u
    refine (SameLife.of_linksOnly (LinksOnly.reparent hrep) u).trans
      ((hwait.life u).dead.trans ?_)
    rw [Kernel.modifyTask_apply]
    split
    · rename_i heq
      simp [heq, Task.Dead]
    · rename_i hne
      simp [hne]
  refine ⟨⟨?_, fun hd => ?_, fun hs => by cases hs⟩, fun t ht hd => ?_⟩
  · exact (hapart₃.reparent (hapart₃.child _) hrep).of_tasks rfl rfl
  · rcases (hdead _).mp hd with heq | hd
    · exact hcidle heq.symm
    · exact h.idle ((hlife₁ _ hidle.symm).mp hd)
  · have htnew : t ≠ new := fun heq => hnew (heq ▸ ht)
    exact (hdead t).mpr (Or.inr ((hlife₁ t htnew).mpr hd))

theorem sysExecve_life {env : ExecEnv} {pathRes : Int}
    {args : ExecArgs} (h : Lively k) (halive : ¬k.currentTask.Dead)
    (hkworker : k.currentTask.isKworker = false) (hnew : new ∉ k.allocated)
    (hrun : sysExecve env fuel k pathRes args new = .ok k') :
    KeepsDead k k' := by
  have henter := Quiet.of_attrsOnly (.enterSyscall k 12)
  rw [sysExecve] at hrun
  generalize enterSyscall k 12 = k₁ at henter hrun
  have halive₁ : ¬k₁.currentTask.Dead := by
    rw [Kernel.currentTask, henter.current]
    exact fun hdead => halive ((henter.life _).dead.mp hdead)
  have hkworker₁ : k₁.currentTask.isKworker = false := by
    rw [Kernel.currentTask, henter.current, henter.kworker]
    exact hkworker
  dsimp only at hrun
  split at hrun
  · obtain rfl := Except.ok.inj hrun
    exact (henter.trans (.of_attrsOnly (.enterSyscall _ _))).keepsDead h
  rw [bind_ok_iff] at hrun
  obtain ⟨⟨res, k₂⟩, hexec, hrun⟩ := hrun
  have hkept := henter.andThen (execve_life (henter.keepsDead h).lively halive₁
    hkworker₁ (henter.allocated ▸ hnew) hexec)
  obtain rfl := Except.ok.inj hrun
  split
  · exact hkept
  · exact hkept.quiet (.of_attrsOnly (.enterSyscall k₂ pathRes))

theorem createKworker_life {regs : Iframe} (h : Lively k)
    (halive : ¬k.currentTask.Dead) (hnew : new ∉ k.allocated)
    (hrun : createKworker k new regs = .ok k') : KeepsDead k k' := by
  have hidle : new ≠ idleTask := fun heq => hnew (heq ▸ h.apart.allocated)
  obtain ⟨cr3, phys, -, rfl⟩ := createKworker_ok hrun
  have hnewAlive : ¬(kworkerTask k cr3 regs).Dead :=
    Task.not_dead_of_state (s := .ready) rfl (by decide)
  have hpid : IdleApart { k with lastPid := k.lastPid + 1 } :=
    h.apart.of_tasks rfl rfl
  have hapart : IdleApart (allocTask { k with lastPid := k.lastPid + 1 } new phys
      (kworkerTask k cr3 regs)) :=
    hpid.allocTask hidle (Option.some_ne_none _).symm (Option.some_ne_none _).symm
  have hlife : ∀ k₁ : Kernel, SameLife k₁ (k₁.modifyTask k.current fun x =>
      { x with next := new }) := fun k₁ => .modifyTask k₁ k.current Iff.rfl
  refine .of_new h hnew halive (hapart.modifyLinks k.current (fun _ => rfl)
    (fun _ => rfl) (hapart.child _) (hapart.sibling _)) (fun u hu _ => ?_) ?_ rfl
  · rw [hlife _ u, allocTask_ne _ _ _ hu]
  · rw [hlife _ k.current]
    by_cases hc : k.current = new
    · rw [hc, allocTask_new]
      exact hnewAlive
    · rw [allocTask_ne _ _ _ hc]
      exact halive

theorem kworkerExit_life (h : Lively k) (hne : k.current ≠ idleTask) :
    KeepsDead k (kworkerExit k) := by
  rw [kworkerExit]
  split
  · exact (Quiet.refl k).keepsDead h
  have hdead : ∀ u, ((k.modifyCurrent fun x =>
      { x with state := .deleted }).tasks u).Dead ↔
        u = k.current ∨ (k.tasks u).Dead := by
    intro u
    rw [Kernel.modifyCurrent, Kernel.modifyTask_apply]
    split
    · rename_i heq
      simp [heq, Task.Dead]
    · rename_i hu
      simp [hu]
  have hapart := h.apart.modifyTask k.current (f := fun x =>
    { x with state := .deleted }) fun _ => ⟨rfl, rfl⟩
  refine ⟨⟨hapart.of_tasks rfl rfl, fun hd => ?_, fun hs => by cases hs⟩,
    fun t _ hd => (hdead t).mpr (Or.inr hd)⟩
  exact ((hdead _).mp hd).elim (fun heq => hne heq.symm) h.idle

/-! ### Runs -/

/-- No call of `kill` stops a zombie of the task ring. -/
def Op.SparesZombies (k : Kernel) : Op → Prop
  | .kill pid sig => ∀ fuel ring, ringFrom k fuel initTask = .ok ring →
      sparesZombies k ring pid sig
  | _ => True

theorem step_life {op : Op} (h : Lively k) (hspares : op.SparesZombies k)
    (hstep : Step k op k') : KeepsDead k k' := by
  obtain ⟨henabled, fuel, reports, hrun⟩ := hstep
  have hattrs : ∀ {k₁ : Kernel}, AttrsOnly k k₁ → KeepsDead k k₁ := fun ha =>
    (Quiet.of_attrsOnly ha).keepsDead h
  have henter := fun n => Quiet.of_attrsOnly (AttrsOnly.enterSyscall k n)
  have hlively := fun n => ((henter n).keepsDead h).lively
  have halive : k.switching = false → ∀ n,
      ¬(enterSyscall k n).currentTask.Dead := fun hs n =>
    (hlively n).current ((henter n).switching.trans hs)
  cases op with
  | switchTask env =>
      replace hrun := reportsNone_ok hrun
      exact switchTask_life h hrun
  | deliverSignals env =>
      replace hrun := reportsNone_ok hrun
      exact deliverSignals_life h hrun
  | runNext =>
      replace hrun := reportsNone_ok hrun
      exact runNext_life h (h.current henabled) hrun
  | checkBlockedTasks reduceTicks =>
      rw [Op.run, GlitchedOS.checkBlockedTasks, bind_ok_iff] at hrun
      obtain ⟨ring, -, hrun⟩ := hrun
      exact (checkBlockedLoop_life hrun).keepsDead h
  | createKworker new regs =>
      replace hrun := reportsNone_ok hrun
      exact createKworker_life h (h.current henabled.1) henabled.2 hrun
  | kworkerExit =>
      obtain ⟨-, rfl⟩ := Prod.mk.inj (Except.ok.inj hrun)
      exact kworkerExit_life h henabled.2
  | sleep ms =>
      replace hrun := reportsNone_ok hrun
      exact (henter 16).andThen
        (sleep_life (hlively 16) (halive henabled.1 16) hrun).1
  | fork new =>
      replace hrun := reportsNone_ok hrun
      exact (henter 11).andThen (fork_life (hlively 11) (halive henabled.1 11)
        henabled.2.2 hrun)
  | spawn env pathRes args new =>
      replace hrun := reportsNone_ok hrun
      exact sysSpawn_life h (h.current henabled.1) henabled.2.2 hrun
  | execve env pathRes args new =>
      replace hrun := reportsNone_ok hrun
      exact sysExecve_life h (h.current henabled.1) henabled.2.1 henabled.2.2 hrun
  | exit env ret =>
      replace hrun := reportsNone_ok hrun
      exact (henter 0).andThen (exit_life (hlively 0) hrun)
  | waitpid pid wstatus options =>
      exact (sysWaitpid_life h (h.current henabled.1) hrun).1
  | kill pid sig =>
      obtain ⟨-, res, k₁, rfl, ⟨-, rfl⟩ | ⟨-, ring, hring, rfl⟩⟩ := kill_ok hrun
      · exact hattrs (.leaveSyscall (.refl k))
      · exact ((killLoop_life (hspares fuel ring hring)).trans
          (.of_attrsOnly (.enterSyscall _ res))).keepsDead h
  | raise sig =>
      obtain ⟨-, rfl⟩ := Prod.mk.inj (Except.ok.inj hrun)
      exact ((raise_life (h.current henabled.1) sig).trans
        (.of_attrsOnly (.enterSyscall _ _))).keepsDead h
  | userCode _ | sigaction _ _ | fdOpen _ _ | fdClose _ _ | fcntl _ _ _
  | dup2 _ _ _ | pipe _ | fdSocket _ _ | sigprocmask _ _ | setpgid _ _ | setsid
  | mount _ _ _ _ | unmount _ _ _ => exact hattrs (Op.plain_attrs rfl hrun)

theorem bootTasks_no_children (info : BootInfo) (t : Nat) :
    (bootTasks info t).child = none ∧ (bootTasks info t).nextSibling = none := by
  rw [bootTasks]
  split
  · exact ⟨rfl, rfl⟩
  split <;> exact ⟨rfl, rfl⟩

theorem bootKernel_lively (info : BootInfo) : Lively (bootKernel info) where
  apart :=
    { allocated := Finset.mem_insert_self _ _
      kworker := rfl
      parent := rfl
      child := fun t heq => by
        cases (bootTasks_no_children info t).1.symm.trans heq
      sibling := fun t heq => by
        cases (bootTasks_no_children info t).2.symm.trans heq }
  idle := Task.not_dead_of_state (s := .ready) rfl (by decide)
  current := fun _ => Task.not_dead_of_state (s := .ready) rfl (by decide)

/-- A step that sends no stop signal to a zombie. -/
def SparingStep (k : Kernel) (op : Op) (k' : Kernel) : Prop :=
  op.SparesZombies k ∧ Step k op k'

/-- In a run that sends no stop signal to a zombie, a terminated task stays a
zombie or deleted until `gc_tasks` frees it, and `get_next_task` never returns
it. -/
theorem zombie_never_runs (info : BootInfo) {ops later : List Op} {k k' : Kernel}
    {z : Nat} (hrun : Run SparingStep (bootKernel info) ops k)
    (hzombie : (k.tasks z).state = .zombie)
    (hlater : Run (fun k op k' => z ∈ k.allocated ∧ SparingStep k op k') k later
      k') :
    ((k'.tasks z).state = .zombie ∨ (k'.tasks z).state = .deleted) ∧
      ∀ fuel next k'', getNextTask fuel k' = .ok (next, k'') →
        next ≠ some z := by
  have hlively : Lively k := hrun.invariant Lively
    (fun _ _ _ hstep h => (step_life h hstep.1 hstep.2).lively)
    (bootKernel_lively info)
  have hdead : Lively k' ∧ (k'.tasks z).Dead := by
    refine hlater.invariant (fun k => Lively k ∧ (k.tasks z).Dead) ?_
      ⟨hlively, Or.inl hzombie⟩
    rintro k₁ op k₂ ⟨hz, hspares, hstep⟩ ⟨hlively₁, hdead₁⟩
    have hkept := step_life hlively₁ hspares hstep
    exact ⟨hkept.lively, hkept.dead z hz hdead₁⟩
  refine ⟨hdead.2, ?_⟩
  rintro fuel next k'' hnext rfl
  obtain ⟨rr, hloop, -⟩ := getNextTask_ok hnext
  exact Task.not_dead_of_state (nextLoop_ready hloop) (by decide) hdead.2

def childExits : List Op :=
  [.fork 2, .switchTask closes, .exit closes 0, .switchTask closes]

theorem sparesZombies_of_terminate {sig : Nat}
    (h : signalDefaultActions sig ≠ .stop) : sparesZombies k ring pid sig := by
  intro t _ _ _
  simp [stops, h]

set_option maxRecDepth 2000 in
/-- A child that has exited is sent `SIGTERM` and waited for. -/
theorem zombie_never_runs_waited : ∃ k k',
    Run SparingStep (bootKernel smallBoot) childExits k ∧
      (k.tasks 2).state = .zombie ∧
      Run (fun k op k' => 2 ∈ k.allocated ∧ SparingStep k op k') k
        [.kill 2 15, .waitpid 2 none 0#32] k' ∧
      (((k'.tasks 2).state = .zombie ∨ (k'.tasks 2).state = .deleted) ∧
        ∀ fuel next k'', getNextTask fuel k' = .ok (next, k'') →
          next ≠ some 2) := by
  have hruns : ∃ k ∈ runOps 8 (fun _ => true) childExits (bootKernel smallBoot),
      ∃ k' ∈ runOps 8 (fun k => decide (2 ∈ k.allocated))
        [.kill 2 15, .waitpid 2 none 0#32] k, (k.tasks 2).state = .zombie := by
    decide +kernel
  obtain ⟨k, hk, k', hk', hzombie⟩ := hruns
  have hrun : Run SparingStep (bootKernel smallBoot) childExits k := by
    refine (runOps_run hk).mono_of_mem fun k op k' hop hstep => ⟨?_, hstep.2⟩
    simp only [childExits, List.mem_cons, List.not_mem_nil, or_false] at hop
    rcases hop with rfl | rfl | rfl | rfl <;> exact trivial
  have hlater : Run (fun k op k' => 2 ∈ k.allocated ∧ SparingStep k op k') k
      [.kill 2 15, .waitpid 2 none 0#32] k' := by
    refine (runOps_run hk').mono_of_mem fun k op k' hop hstep =>
      ⟨of_decide_eq_true hstep.1, ?_, hstep.2⟩
    simp only [List.mem_cons, List.not_mem_nil, or_false] at hop
    rcases hop with rfl | rfl
    · exact fun _ _ _ => sparesZombies_of_terminate (by decide)
    · exact trivial
  exact ⟨k, k', hrun, hzombie, hlater,
    zombie_never_runs smallBoot hrun hzombie hlater⟩

set_option maxRecDepth 2000 in
/-- A child that has exited is stopped and continued by its parent: it is ready
again, and the next to run. -/
theorem zombie_continued : ∃ k k',
    Run Step (bootKernel smallBoot) childExits k ∧
      (k.tasks 2).state = .zombie ∧
      Run (fun k op k' => 2 ∈ k.allocated ∧ Step k op k') k
        [.kill 2 sigStop, .kill 2 sigCont] k' ∧
      (k'.tasks 2).state = .ready ∧
      ∃ fuel k'', getNextTask fuel k' = .ok (some 2, k'') := by
  have hruns : ∃ k ∈ runOps 8 (fun _ => true) childExits (bootKernel smallBoot),
      ∃ k' ∈ runOps 8 (fun k => decide (2 ∈ k.allocated))
        [.kill 2 sigStop, .kill 2 sigCont] k,
        (k.tasks 2).state = .zombie ∧ (k'.tasks 2).state = .ready ∧
          (nextLoop k' k'.rr 8 k'.rr).toOption = some (some 2, 2) := by
    decide +kernel
  obtain ⟨k, hk, k', hk', hzombie, hready, hnext⟩ := hruns
  refine ⟨k, k', (runOps_run hk).mono fun _ _ _ hstep => hstep.2, hzombie,
    (runOps_run hk').mono fun _ _ _ hstep =>
      ⟨of_decide_eq_true hstep.1, hstep.2⟩, hready, 8, { k' with rr := 2 }, ?_⟩
  have hloop : nextLoop k' k'.rr 8 k'.rr = .ok (some 2, 2) := by
    revert hnext
    cases nextLoop k' k'.rr 8 k'.rr with
    | error stop => simp [Except.toOption]
    | ok r => simp [Except.toOption]
  rw [getNextTask, hloop]
  rfl

end GlitchedOS
