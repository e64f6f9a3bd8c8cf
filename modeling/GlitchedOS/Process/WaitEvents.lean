/-
The events of a child that `waitpid` reports: what an operation may do to them.  Reporting takes
an event off, except that `check_blocked_tasks` leaves a terminated child behind when it tells a
task that waits for any child and gave no place for the status.
-/
import GlitchedOS.Process.StepInvariant
import GlitchedOS.Process.WaitAgree

namespace GlitchedOS

variable {k k' k'' : Kernel}
variable {fuel t : Nat} {f : Task → Task} {env : CloseEnv} {x : Task}

/-- An event of the task that is still to be reported. -/
def Task.owes (x : Task) : WaitEvent → Bool
  | .terminated => decide (x.state = .zombie)
  | .stopped => decide (x.waitpidEvent = 1)
  | .continued => decide (x.waitpidEvent = 2)

/-- `check_blocked_tasks` finds a terminated child for the task `t`, which waits for any child
and gave no place for the status. -/
def leavesZombie (fuel : Nat) (k : Kernel) (t : Nat) : Bool :=
  let x := k.tasks t
  decide (x.state = .blocked ∧ x.blockReason = .waitpid ∧ x.blockedProcess = none ∧
      x.wstatus = none) &&
    match firstWaitpidTarget k x.waitpidFlags fuel x.child with
    | .ok (some child) => decide ((k.tasks child).state = .zombie)
    | _ => false

/-- The loop of `check_blocked_tasks` comes to no such task. -/
def loopReaps (fuel : Nat) (reduceTicks : Bool) : List Nat → Kernel → Bool
  | [], _ => true
  | t :: rest, k =>
    !leavesZombie fuel k t &&
      match checkBlockedTask fuel reduceTicks k t with
      | .ok (_, k) => loopReaps fuel reduceTicks rest k
      | .error _ => true

/-- Every task has the event it had, and the deleted ones stay deleted. -/
structure KeepsEvents (k k' : Kernel) : Prop where
  event : ∀ t, (k'.tasks t).waitpidEvent = (k.tasks t).waitpidEvent
  deleted : ∀ t, (k.tasks t).state = .deleted → (k'.tasks t).state = .deleted

namespace KeepsEvents

theorem refl (k : Kernel) : KeepsEvents k k := ⟨fun _ => rfl, fun _ => id⟩

theorem trans (h : KeepsEvents k k') (h' : KeepsEvents k' k'') : KeepsEvents k k'' where
  event := fun t => (h'.event t).trans (h.event t)
  deleted := fun t hdeleted => h'.deleted t (h.deleted t hdeleted)

theorem of_state (hevent : ∀ t, (k'.tasks t).waitpidEvent = (k.tasks t).waitpidEvent)
    (hstate : ∀ t, (k'.tasks t).state = (k.tasks t).state) : KeepsEvents k k' :=
  ⟨hevent, fun t hdeleted => (hstate t).trans hdeleted⟩

theorem congr (h : KeepsEvents k k') (htasks : k''.tasks = k'.tasks) : KeepsEvents k k'' :=
  h.trans (of_state (fun t => by rw [htasks]) fun t => by rw [htasks])

theorem of_attrsOnly (h : AttrsOnly k k') : KeepsEvents k k' :=
  of_state (h.proj Task.waitpidEvent fun _ _ => rfl) (h.proj Task.state fun _ _ => rfl)

theorem of_linksOnly (h : LinksOnly k k') : KeepsEvents k k' :=
  of_state (h.proj Task.waitpidEvent fun _ _ => rfl) (h.proj Task.state fun _ _ => rfl)

theorem modifyTask (k : Kernel) (t : Nat)
    (hevent : (f (k.tasks t)).waitpidEvent = (k.tasks t).waitpidEvent)
    (hstate : (k.tasks t).state = .deleted → (f (k.tasks t)).state = .deleted) :
    KeepsEvents k (k.modifyTask t f) where
  event := fun u => k.modifyTask_proj Task.waitpidEvent t u hevent
  deleted := fun u hdeleted => by
    rw [Kernel.modifyTask_apply]
    split
    · rename_i heq
      rw [heq] at hdeleted ⊢
      exact hstate hdeleted
    · exact hdeleted

theorem modifyAlive (halive : ¬(k.tasks t).Dead)
    (hevent : (f (k.tasks t)).waitpidEvent = (k.tasks t).waitpidEvent) :
    KeepsEvents k (k.modifyTask t f) :=
  modifyTask k t hevent fun hdeleted => absurd (Or.inr hdeleted) halive

theorem runNext (h : GlitchedOS.runNext fuel k = .ok k') : KeepsEvents k k' := by
  rw [GlitchedOS.runNext, bind_ok_iff] at h
  obtain ⟨k₁, hgc, h⟩ := h
  obtain rfl := Except.ok.inj h
  rw [gcTasks] at hgc
  have hready : KeepsEvents k (k.modifyCurrent fun x =>
      if x.state = .running then { x with state := .ready } else x) := by
    refine modifyTask k k.current ?_ fun hdeleted => ?_
    · split <;> rfl
    · rw [if_neg (by rw [hdeleted]; decide)]
      exact hdeleted
  have hlinks := gcLoop_collected hgc
  exact hready.trans (of_state (hlinks.links Task.waitpidEvent fun _ _ => rfl)
    (hlinks.links Task.state fun _ _ => rfl))

theorem block (halive : ¬k.currentTask.Dead) (hf : ∀ x, (f x).waitpidEvent = x.waitpidEvent)
    (h : GlitchedOS.runNext fuel (k.modifyCurrent f) = .ok k') : KeepsEvents k k' :=
  (modifyAlive halive (hf _)).trans (runNext h)

theorem sleep {ms : BitVec 64} (halive : ¬k.currentTask.Dead)
    (h : GlitchedOS.sleep fuel k ms = .ok k') : KeepsEvents k k' := by
  rw [GlitchedOS.sleep] at h
  split at h
  · obtain rfl := Except.ok.inj h
    exact modifyTask k k.current rfl id
  · refine block halive ?_ h
    exact fun _ => rfl

theorem kworkerExit (k : Kernel) : KeepsEvents k (GlitchedOS.kworkerExit k) := by
  rw [GlitchedOS.kworkerExit]
  split
  · exact refl k
  · have hdeleted : KeepsEvents k (k.modifyCurrent fun x => { x with state := .deleted }) :=
      modifyTask k k.current rfl fun _ => rfl
    exact hdeleted.congr rfl

theorem exit {ret : Int} (halive : ¬k.currentTask.Dead)
    (h : GlitchedOS.exit env fuel k ret = .ok k') : KeepsEvents k k' := by
  obtain ⟨k₁, -, hk₁, htask⟩ := exit_ok h
  have hclosed := FilesOnly.releaseProcessFds env k
  rw [← hk₁] at hclosed
  have halive₁ : ¬(k₁.tasks k₁.current).Dead := by
    rw [Task.Dead, hclosed.current, hclosed.proj Task.state fun _ _ => rfl]
    exact halive
  obtain ⟨parent, k₂, -, hreparent, rfl⟩ := exitTask_ok htask
  have hended : KeepsEvents k₁ (k₁.modifyCurrent fun x =>
      { x with state := .zombie, returnCode := ret }) := modifyAlive halive₁ rfl
  have htold := modifyTask (k₁.modifyCurrent fun x =>
      { x with state := .zombie, returnCode := ret }) parent
    (f := fun x => { x with pendingSignals := x.pendingSignals ||| sigBit sigChld }) rfl id
  have hlinked := of_linksOnly (.reparent hreparent)
  exact ((of_attrsOnly (.of_filesOnly hclosed)).trans
    ((hended.trans htold).trans hlinked)).congr rfl

theorem deliverSignals (halive : ¬k.currentTask.Dead)
    (h : GlitchedOS.deliverSignals env fuel k = .ok k') : KeepsEvents k k' := by
  obtain ⟨p, f, g, b, rfl | ⟨-, ret, hexit⟩⟩ := deliverSignals_ok h
  · exact modifyTask k k.current rfl id
  · refine (modifyTask k k.current rfl id).trans (exit ?_ hexit)
    have hsame : (k.modifyTask k.current (·.withSignals p f g b)).currentTask =
        k.currentTask.withSignals p f g b := k.modifyTask_self k.current _
    rw [hsame]
    exact halive

theorem switchTask (hlively : Lively k)
    (h : GlitchedOS.switchTask env fuel k = .ok k') : KeepsEvents k k' := by
  obtain ⟨next, rr, hloop, hdeliver⟩ := switchTask_ok h
  have halive : ¬(k.tasks (next.getD idleTask)).Dead := by
    cases next with
    | none => exact hlively.idle
    | some t => exact Task.not_dead_of_state (nextLoop_ready hloop) (by decide)
  have hrunning : KeepsEvents k (k.modifyTask (next.getD idleTask) fun x =>
      { x with state := .running }) := modifyAlive halive rfl
  have hchosen : KeepsEvents k (chooseTask k (next.getD idleTask) rr) := hrunning.congr rfl
  refine hchosen.trans (deliverSignals ?_ hdeliver)
  refine Task.not_dead_of_state (s := .running) ?_ (by decide)
  rw [chooseTask, Kernel.currentTask, Kernel.modifyTask_self]

end KeepsEvents

/-- What is reported is what was owed, and a task whose end is reported is deleted. -/
structure Told (k : Kernel) (reports : List (Nat × WaitEvent)) (k' : Kernel) : Prop where
  count : ∀ t event, reports.count (t, event) + ((k'.tasks t).owes event).toNat ≤
    ((k.tasks t).owes event).toNat
  deleted : ∀ t, (k.tasks t).state = .deleted ∨ (t, .terminated) ∈ reports →
    (k'.tasks t).state = .deleted

theorem owes_toNat_le {y : Task} {event : WaitEvent}
    (h : y.owes event = true → x.owes event = true) :
    (y.owes event).toNat ≤ (x.owes event).toNat := by
  cases hy : y.owes event with
  | false => exact Nat.zero_le _
  | true => rw [h hy]

theorem owes_congr {y : Task} (hevent : y.waitpidEvent = x.waitpidEvent)
    (hzombie : y.state = .zombie → x.state = .zombie) (event : WaitEvent) :
    (y.owes event).toNat ≤ (x.owes event).toNat := by
  apply owes_toNat_le
  cases event with
  | terminated =>
      intro hy
      exact decide_eq_true (hzombie (of_decide_eq_true hy))
  | stopped =>
      rw [Task.owes, Task.owes, hevent]
      exact id
  | continued =>
      rw [Task.owes, Task.owes, hevent]
      exact id

theorem waitEvent_owes {flags : BitVec 32} {event : WaitEvent}
    (h : waitEvent x flags = some event) : x.owes event = true := by
  rw [waitEvent] at h
  split at h
  · rename_i hzombie
    obtain rfl := Option.some.inj h
    exact decide_eq_true hzombie
  split at h
  · rename_i hstopped
    obtain rfl := Option.some.inj h
    exact (Bool.and_eq_true_iff.mp hstopped).2
  split at h
  · rename_i hcontinued
    obtain rfl := Option.some.inj h
    exact (Bool.and_eq_true_iff.mp hcontinued).2
  · cases h

def Task.consumed (x : Task) : WaitEvent → Task
  | .terminated => { x with state := .deleted }
  | _ => { x with waitpidEvent := 0 }

theorem consumeEvent_self (k : Kernel) (child : Nat) (event : WaitEvent) :
    (consumeEvent k child event).tasks child = (k.tasks child).consumed event := by
  cases event <;> simp [consumeEvent, Task.consumed]

theorem consumed_owes_self (x : Task) (event : WaitEvent) :
    (x.consumed event).owes event = false := by
  cases event <;> simp [Task.consumed, Task.owes]

theorem consumed_owes {event other : WaitEvent}
    (h : (x.consumed event).owes other = true) : x.owes other = true := by
  cases event <;> cases other <;> first | exact h | simp [Task.consumed, Task.owes] at h

namespace Told

theorem trans {reports reports' : List (Nat × WaitEvent)} (h : Told k reports k')
    (h' : Told k' reports' k'') : Told k (reports ++ reports') k'' where
  count := fun t event => by
    have hfirst := h.count t event
    have hsecond := h'.count t event
    rw [List.count_append]
    omega
  deleted := fun t ht => by
    rw [List.mem_append] at ht
    rcases ht with hd | hr | hr
    · exact h'.deleted t (.inl (h.deleted t (.inl hd)))
    · exact h'.deleted t (.inl (h.deleted t (.inr hr)))
    · exact h'.deleted t (.inr hr)

theorem of_keeps (h : KeepsEvents k k')
    (hzombie : ∀ t, (k'.tasks t).state = .zombie → (k.tasks t).state = .zombie) :
    Told k [] k' where
  count := fun t event => by
    rw [List.count_nil, Nat.zero_add]
    exact owes_congr (h.event t) (hzombie t) event
  deleted := fun t ht => h.deleted t (ht.resolve_right List.not_mem_nil)

theorem of_quiet (h : Quiet k k')
    (hevent : ∀ t, (k'.tasks t).waitpidEvent = (k.tasks t).waitpidEvent) : Told k [] k' := by
  refine of_keeps ⟨hevent, fun t => (h.life t).deleted⟩ fun t hzombie => ?_
  rcases (h.life t).dead.mp (.inl hzombie) with hz | hd
  · exact hz
  · have hdeleted := (h.life t).deleted hd
    rw [hzombie] at hdeleted
    cases hdeleted

theorem of_attrsOnly (h : AttrsOnly k k') : Told k [] k' :=
  of_quiet (.of_attrsOnly h) (h.proj Task.waitpidEvent fun _ _ => rfl)

theorem andThen {reports : List (Nat × WaitEvent)} (h : Told k reports k')
    (h' : Told k' [] k'') : Told k reports k'' := by
  have hboth := h.trans h'
  rwa [List.append_nil] at hboth

theorem consumeEvent {child : Nat} {flags : BitVec 32} {event : WaitEvent}
    (h : waitEvent (k.tasks child) flags = some event) :
    Told k [(child, event)] (GlitchedOS.consumeEvent k child event) where
  count := fun t other => by
    by_cases ht : t = child
    · rw [ht, consumeEvent_self]
      by_cases hother : other = event
      · rw [hother, consumed_owes_self, waitEvent_owes h, List.count_singleton_self]
        exact le_rfl
      · have hne : (child, other) ≠ (child, event) := fun heq => hother (Prod.mk.inj heq).2
        rw [List.count_eq_zero.mpr (by simpa using hne), Nat.zero_add]
        exact owes_toNat_le consumed_owes
    · have hne : (t, other) ≠ (child, event) := fun heq => ht (Prod.mk.inj heq).1
      rw [consumeEvent_of_ne ht, List.count_eq_zero.mpr (by simpa using hne), Nat.zero_add]
  deleted := fun t ht => by
    by_cases hchild : t = child
    · subst hchild
      rw [consumeEvent_self]
      rcases ht with hdeleted | hreport
      · cases event with
        | terminated => rfl
        | stopped => exact hdeleted
        | continued => exact hdeleted
      · obtain ⟨-, rfl⟩ := Prod.mk.inj (List.mem_singleton.mp hreport)
        rfl
    · rw [consumeEvent_of_ne hchild]
      refine ht.resolve_right fun hreport => hchild ?_
      exact (Prod.mk.inj (List.mem_singleton.mp hreport)).1

/-- The status is stored, and the event taken off. -/
theorem report {child : Nat} {flags : BitVec 32} {event : WaitEvent}
    (h : waitEvent (k.tasks child) flags = some event) (cr3 : Nat) (wstatus : Option Nat)
    (word : BitVec 32) : Told k [(child, event)]
      (GlitchedOS.consumeEvent (storeStatus k cr3 wstatus word) child event) := by
  have hevent : waitEvent ((storeStatus k cr3 wstatus word).tasks child) flags =
      some event := by
    rw [storeStatus_tasks]
    exact h
  exact (of_attrsOnly (.storeStatus k cr3 wstatus word)).trans (consumeEvent hevent)

theorem unblock (halive : ¬(k.tasks t).Dead) (rax : Int) :
    Told k [] (GlitchedOS.unblock k t rax) :=
  of_quiet (unblock_life halive rax) fun u => k.modifyTask_proj Task.waitpidEvent t u rfl

theorem checkDelay {reduceTicks : Bool} (halive : ¬(k.tasks t).Dead) :
    Told k [] (GlitchedOS.checkDelay reduceTicks k t) := by
  refine of_quiet (checkDelay_life halive) fun u => ?_
  have hwrite : ∀ (k : Kernel) (f : Task → Task), (∀ x, (f x).waitpidEvent = x.waitpidEvent) →
      ((k.modifyTask t f).tasks u).waitpidEvent = (k.tasks u).waitpidEvent :=
    fun k f hf => k.modifyTask_proj Task.waitpidEvent t u (hf _)
  rw [GlitchedOS.checkDelay]
  generalize hk₁ : (if reduceTicks = true then k.modifyTask t fun x =>
    { x with blockedTicks := x.blockedTicks - 1#64 } else k) = k₁
  have h₁ : (k₁.tasks u).waitpidEvent = (k.tasks u).waitpidEvent := by
    rw [← hk₁]
    split
    · exact hwrite k _ fun _ => rfl
    · rfl
  generalize hk₂ : (if (k₁.tasks t).blockedTicks = 0#64 then k₁.modifyTask t
    fun x => { x with state := .ready, blockReason := .none } else k₁) = k₂
  have h₂ : (k₂.tasks u).waitpidEvent = (k.tasks u).waitpidEvent := by
    rw [← hk₂, ← h₁]
    split
    · exact hwrite k₁ _ fun _ => rfl
    · rfl
  rw [← h₂]
  split
  · rw [GlitchedOS.unblock]
    refine (hwrite _ _ ?_).trans (hwrite k₂ _ ?_)
    · exact fun _ => rfl
    · exact fun _ => rfl
  · rfl

theorem checkWaitChild {child : Nat} (halive : ¬(k.tasks t).Dead) :
    Told k (GlitchedOS.checkWaitChild k t child).1.toList
      (GlitchedOS.checkWaitChild k t child).2 := by
  have hclear : ∀ {k : Kernel} {rax : Int}, ¬(k.tasks t).Dead →
      Told k [] ((GlitchedOS.unblock k t rax).modifyTask t fun x =>
        { x with blockedProcess := none }) := by
    intro k rax halive
    refine of_quiet ((unblock_life halive rax).trans ?_) fun u => ?_
    · exact .modifyTask _ t (.of_state rfl) fun _ => ⟨rfl, rfl, rfl⟩
    · exact (Kernel.modifyTask_proj Task.waitpidEvent _ t u rfl).trans
        (k.modifyTask_proj Task.waitpidEvent t u rfl)
  rw [GlitchedOS.checkWaitChild]
  dsimp only
  split
  · rename_i event hevent
    have hstored := report_life hevent (k.tasks t).cr3 (k.tasks t).wstatus
      (eventWord (k.tasks child) event)
    exact (report hevent _ _ _).andThen
      (hclear fun hdead => halive ((hstored.life t).dead.mp hdead))
  split
  · exact hclear halive
  · exact of_quiet (.refl k) fun _ => rfl

/-- A terminated child is reported and deleted, as the status is stored. -/
theorem checkWaitAny {r : Option (Nat × WaitEvent)} (halive : ¬(k.tasks t).Dead)
    (hreaps : ∀ child, firstWaitpidTarget k (k.tasks t).waitpidFlags fuel (k.tasks t).child =
      .ok (some child) → (k.tasks t).wstatus = none → (k.tasks child).state ≠ .zombie)
    (h : GlitchedOS.checkWaitAny fuel k t = .ok (r, k')) : Told k r.toList k' := by
  rw [GlitchedOS.checkWaitAny] at h
  dsimp only at h
  rw [bind_ok_iff] at h
  obtain ⟨target, htarget, h⟩ := h
  split at h
  · obtain ⟨rfl, rfl⟩ := Prod.mk.inj (Except.ok.inj h)
    split
    · exact unblock halive _
    · exact of_quiet (.refl k) fun _ => rfl
  rename_i child
  split at h
  · obtain ⟨rfl, rfl⟩ := Prod.mk.inj (Except.ok.inj h)
    exact of_quiet (.refl k) fun _ => rfl
  rename_i event hevent
  obtain ⟨rfl, rfl⟩ := Prod.mk.inj (Except.ok.inj h)
  have hkept : ¬(event = .terminated ∧ (k.tasks t).wstatus = none) := by
    rintro ⟨rfl, hnull⟩
    exact hreaps child htarget hnull (waitEvent_zombie hevent)
  rw [if_neg hkept]
  refine (report hevent _ _ _).andThen (unblock ?_ _)
  have hstored := report_life hevent (k.tasks t).cr3 (k.tasks t).wstatus
  exact fun hdead => halive (((hstored _).life t).dead.mp hdead)

theorem checkBlockedTask {reduceTicks : Bool} {r : Option (Nat × WaitEvent)}
    (hreaps : leavesZombie fuel k t = false)
    (h : GlitchedOS.checkBlockedTask fuel reduceTicks k t = .ok (r, k')) :
    Told k r.toList k' := by
  have hnothing : Told k (none : Option (Nat × WaitEvent)).toList k :=
    of_quiet (.refl k) fun _ => rfl
  rw [GlitchedOS.checkBlockedTask] at h
  split at h
  · obtain ⟨rfl, rfl⟩ := Prod.mk.inj (Except.ok.inj h)
    exact hnothing
  rename_i hblocked
  rw [not_not] at hblocked
  have halive : ¬(k.tasks t).Dead := Task.not_dead_of_state hblocked (by decide)
  split at h
  · obtain ⟨rfl, rfl⟩ := Prod.mk.inj (Except.ok.inj h)
    exact hnothing
  · obtain ⟨rfl, rfl⟩ := Prod.mk.inj (Except.ok.inj h)
    exact checkDelay halive
  rename_i hreason
  split at h
  · have hdone := Except.ok.inj h
    rename_i child _
    have htold : Told k (GlitchedOS.checkWaitChild k t child).1.toList
      (GlitchedOS.checkWaitChild k t child).2 := checkWaitChild halive
    rwa [hdone] at htold
  · rename_i hany
    refine checkWaitAny halive (fun child htarget hnull hzombie => ?_) h
    rw [leavesZombie] at hreaps
    simp [hblocked, hreason, hany, hnull, htarget, hzombie] at hreaps

theorem checkBlockedLoop {reduceTicks : Bool} {l : List Nat}
    {reports : List (Nat × WaitEvent)} (hreaps : loopReaps fuel reduceTicks l k = true)
    (h : GlitchedOS.checkBlockedLoop fuel reduceTicks l k = .ok (reports, k')) :
    Told k reports k' := by
  induction l generalizing k reports with
  | nil =>
      obtain ⟨rfl, rfl⟩ := Prod.mk.inj (Except.ok.inj h)
      exact of_quiet (.refl k) fun _ => rfl
  | cons t rest ih =>
      rw [GlitchedOS.checkBlockedLoop, bind_ok_iff] at h
      obtain ⟨⟨r, k₁⟩, hone, h⟩ := h
      dsimp only at h
      rw [bind_ok_iff] at h
      obtain ⟨⟨reports', k₂⟩, hrest, h⟩ := h
      obtain ⟨rfl, rfl⟩ := Prod.mk.inj (Except.ok.inj h)
      rw [loopReaps, hone, Bool.and_eq_true, Bool.not_eq_true'] at hreaps
      exact (checkBlockedTask hreaps.1 hone).trans (ih hreaps.2 hrest)

theorem sysWaitpid {pid : Int} {wstatus : Option Nat} {options : BitVec 32}
    {reports : List (Nat × WaitEvent)} (halive : ¬k.currentTask.Dead)
    (h : GlitchedOS.sysWaitpid fuel k pid wstatus options = .ok (reports, k')) :
    Told k reports k' := by
  have hcalm := Calm.sysWaitpid h
  rw [GlitchedOS.sysWaitpid, bind_ok_iff] at h
  obtain ⟨⟨r, k₁⟩, hwait, h⟩ := h
  have henter := of_attrsOnly (.enterSyscall k 53)
  have hleave := fun (k : Kernel) (ret : Int) => of_attrsOnly (.enterSyscall k ret)
  rcases waitpid_ok hwait with ⟨ret, -, rfl, rfl⟩ | ⟨child, event, -, hevent, rfl, rfl⟩ |
      ⟨rfl, target, -, hnext⟩
  · obtain ⟨rfl, rfl⟩ := Prod.mk.inj (Except.ok.inj h)
    exact henter.andThen (hleave _ ret)
  · obtain ⟨rfl, rfl⟩ := Prod.mk.inj (Except.ok.inj h)
    exact (henter.trans (report hevent _ _ _)).andThen (hleave _ _)
  · obtain ⟨rfl, rfl⟩ := Prod.mk.inj (Except.ok.inj h)
    rw [blockWaiting] at hnext
    have halive₁ : ¬(enterSyscall k 53).currentTask.Dead := by
      rw [Task.Dead, Kernel.currentTask, enterSyscall_proj Task.state fun _ _ => rfl]
      exact halive
    have hblock : KeepsEvents (enterSyscall k 53) k₁ := by
      refine .block halive₁ ?_ hnext
      exact fun _ => rfl
    exact of_keeps ((KeepsEvents.of_attrsOnly (.enterSyscall k 53)).trans hblock) fun t hzombie =>
      ((hcalm t).zombie hzombie).1

end Told

/-- What sending the signal, once or more, does to a task. -/
inductive Task.Turned (sig : Nat) (x y : Task) : Prop
  | kept (state : y.state = x.state) (event : y.waitpidEvent = x.waitpidEvent)
  | stopped (other : sig ≠ sigCont) (undeleted : x.state ≠ .deleted) (before : x.state ≠ .stopped)
      (after : y.state = .stopped) (event : y.waitpidEvent = 1)
  | continued (cont : sig = sigCont) (before : x.state = .stopped) (after : y.state = .ready)
      (event : y.waitpidEvent = 2)

/-- A task that is stopped is not stopped again, and one that is continued not continued. -/
theorem Task.Turned.trans {sig : Nat} {y z : Task} (h : x.Turned sig y) (h' : y.Turned sig z) :
    x.Turned sig z := by
  cases h' with
  | kept state event =>
      cases h with
      | kept state₁ event₁ => exact .kept (state.trans state₁) (event.trans event₁)
      | stopped other undeleted before after event₁ =>
          exact .stopped other undeleted before (state.trans after) (event.trans event₁)
      | continued cont before after event₁ =>
          exact .continued cont before (state.trans after) (event.trans event₁)
  | stopped other undeleted before after event =>
      cases h with
      | kept state₁ event₁ =>
          rw [state₁] at undeleted before
          exact .stopped other undeleted before after event
      | stopped _ _ _ after₁ _ => exact absurd after₁ before
      | continued cont _ _ _ => exact absurd cont other
  | continued cont before after event =>
      cases h with
      | kept state₁ event₁ => exact .continued cont (state₁.symm.trans before) after event
      | stopped other _ _ _ _ => exact absurd cont other
      | continued _ _ after₁ _ =>
          rw [after₁] at before
          cases before

theorem Task.signalled_turned (h : x.state ≠ .deleted) (sig : Nat) :
    x.Turned sig (x.signalled sig) := by
  rw [Task.signalled]
  split
  · rename_i hstops
    have hbefore : x.state ≠ .stopped := by
      rw [stops, Bool.and_eq_true] at hstops
      exact of_decide_eq_true hstops.2
    exact .stopped (stops_ne_sigCont hstops) h hbefore rfl rfl
  split
  · rename_i hcont
    exact .continued hcont.1 hcont.2 rfl rfl
  · exact .kept rfl rfl

theorem signalTask_turned (h : (k.tasks t).state ≠ .deleted) (sig u : Nat) :
    (k.tasks u).Turned sig ((signalTask k t sig).tasks u) := by
  have hsent := signalTask_pending k t sig
  have hlast : ((k.modifyTask t (·.signalled sig)).tasks u).Turned sig
      ((signalTask k t sig).tasks u) :=
    .kept (hsent.proj Task.state (fun _ _ => rfl) u)
      (hsent.proj Task.waitpidEvent (fun _ _ => rfl) u)
  refine .trans ?_ hlast
  rw [Kernel.modifyTask_apply]
  split
  · rename_i heq
    rw [heq]
    exact Task.signalled_turned h sig
  · exact .kept rfl rfl

theorem killLoop_turned (pid : Int) (sig : Nat) (l : List Nat) (k : Kernel) (u : Nat) :
    (k.tasks u).Turned sig ((killLoop pid sig l k).2.tasks u) := by
  induction l generalizing k with
  | nil => exact .kept rfl rfl
  | cons t rest ih =>
      rw [killLoop]
      split
      · rename_i htarget
        rw [Bool.and_eq_true, decide_eq_true_eq] at htarget
        exact (signalTask_turned htarget.2 sig u).trans (ih _)
      · exact ih k

end GlitchedOS
