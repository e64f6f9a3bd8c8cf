/-
What a step does to the tasks.  Signals apart, the system writes to a task in one way only:
the signal settings stay as they are, of the pending signals at most some that are not masked
are gone, and no zombie is made or ends differently.  A property that is kept by such writes,
and by sending a signal, setting a handler or the mask, and ending a task, is kept by every
step.
-/
import GlitchedOS.Process.BlockedCalls
import GlitchedOS.Process.SignalOnce

namespace GlitchedOS

variable {k k' k'' : Kernel}
variable {fuel new : Nat} {f : Task → Task} {pid : Int} {r : Int × Kernel} {env : CloseEnv}

/-- The signal settings of a task, its state, and how it ended. -/
def Task.standing (x : Task) : (Nat → Handler) × BitVec 32 × ProcessState × Int :=
  (x.signalHandlers, x.signalMask, x.state, x.returnCode)

def Task.settled (x : Task) :
    ((Nat → Handler) × BitVec 32 × ProcessState × Int) × BitVec 32 :=
  (x.standing, x.pendingSignals)

/-- `y` has the signal settings of `x`, and of the pending signals all that are masked; and it
is a zombie only where `x` is the same one. -/
structure Task.Calm (x y : Task) : Prop where
  handlers : y.signalHandlers = x.signalHandlers
  mask : y.signalMask = x.signalMask
  pending : ∀ i, y.pendingSignals.getLsbD i = true → x.pendingSignals.getLsbD i = true
  masked : ∀ i, x.signalMask.getLsbD i = true →
    y.pendingSignals.getLsbD i = x.pendingSignals.getLsbD i
  zombie : y.state = .zombie → x.state = .zombie ∧ y.returnCode = x.returnCode

namespace Task.Calm

variable {x y z : Task}

theorem of_settled (h : y.settled = x.settled) : x.Calm y := by
  obtain ⟨hstanding, hpending⟩ := Prod.mk.inj h
  obtain ⟨hhandlers, hrest⟩ := Prod.mk.inj hstanding
  obtain ⟨hmask, hrest⟩ := Prod.mk.inj hrest
  obtain ⟨hstate, hcode⟩ := Prod.mk.inj hrest
  refine ⟨hhandlers, hmask, fun i hi => ?_, fun i _ => by rw [hpending],
    fun hy => ⟨hstate.symm.trans hy, hcode⟩⟩
  rw [← hpending]
  exact hi

theorem refl (x : Task) : x.Calm x := of_settled rfl

theorem trans (h : x.Calm y) (h' : y.Calm z) : x.Calm z where
  handlers := h'.handlers.trans h.handlers
  mask := h'.mask.trans h.mask
  pending := fun i hi => h.pending i (h'.pending i hi)
  masked := fun i hi => (h'.masked i (by rw [h.mask]; exact hi)).trans (h.masked i hi)
  zombie := fun hz => ⟨(h.zombie (h'.zombie hz).1).1,
    (h'.zombie hz).2.trans (h.zombie (h'.zombie hz).1).2⟩

theorem of_state (hhandlers : y.signalHandlers = x.signalHandlers)
    (hmask : y.signalMask = x.signalMask) (hpending : y.pendingSignals = x.pendingSignals)
    (hy : y.state ≠ .zombie) : x.Calm y :=
  ⟨hhandlers, hmask, fun _ hi => hpending ▸ hi, fun _ _ => by rw [hpending],
    fun h => absurd h hy⟩

end Task.Calm

/-- Every task is as it was, in the sense of `Task.Calm`. -/
def Calm (k k' : Kernel) : Prop := ∀ t, (k.tasks t).Calm (k'.tasks t)

namespace Calm

theorem refl (k : Kernel) : Calm k k := fun t => .refl (k.tasks t)

theorem trans (h : Calm k k') (h' : Calm k' k'') : Calm k k'' := fun t =>
  (h t).trans (h' t)

theorem of_settled (h : ∀ t, (k'.tasks t).settled = (k.tasks t).settled) :
    Calm k k' := fun t => .of_settled (h t)

theorem modifyTask (k : Kernel) (t : Nat)
    (hf : (k.tasks t).Calm (f (k.tasks t))) : Calm k (k.modifyTask t f) := by
  intro u
  rw [Kernel.modifyTask_apply]
  split
  · rename_i heq
    rw [heq]
    exact hf
  · exact .refl _

theorem write (k : Kernel) (t : Nat)
    (hf : ∀ x, (f x).settled = x.settled) : Calm k (k.modifyTask t f) :=
  modifyTask k t (.of_settled (hf _))

theorem setState (k : Kernel) (t : Nat)
    (hf : ∀ x, (f x).signalHandlers = x.signalHandlers ∧ (f x).signalMask = x.signalMask ∧
      (f x).pendingSignals = x.pendingSignals ∧ (f x).state ≠ .zombie) :
    Calm k (k.modifyTask t f) := by
  obtain ⟨hhandlers, hmask, hpending, hstate⟩ := hf (k.tasks t)
  exact modifyTask k t (.of_state hhandlers hmask hpending hstate)

theorem of_filesOnly (h : FilesOnly k k') : Calm k k' :=
  of_settled (h.proj Task.settled fun _ _ => rfl)

theorem of_linksOnly (h : LinksOnly k k') : Calm k k' :=
  of_settled (h.proj Task.settled fun _ _ => rfl)

theorem enterSyscall (k : Kernel) (number : Int) :
    Calm k (GlitchedOS.enterSyscall k number) :=
  of_settled (enterSyscall_proj Task.settled (fun _ _ => rfl) k number)

theorem leaveSyscall (h : Calm k r.2) :
    Calm k (GlitchedOS.leaveSyscall r) :=
  h.trans (enterSyscall r.2 r.1)

/-- Waiting makes no zombie, as it revives none and ends none. -/
theorem of_waitOnly (h : WaitOnly k k') (hq : Quiet k k') : Calm k k' := fun t => by
  have hpending := h.proj Task.pendingSignals (fun _ _ _ _ _ _ _ => rfl) t
  refine ⟨h.proj Task.signalHandlers (fun _ _ _ _ _ _ _ => rfl) t,
    h.proj Task.signalMask (fun _ _ _ _ _ _ _ => rfl) t, fun _ hi => hpending ▸ hi,
    fun _ _ => by rw [hpending], fun hzombie => ⟨?_,
    h.proj Task.returnCode (fun _ _ _ _ _ _ _ => rfl) t⟩⟩
  rcases (hq.life t).dead.mp (Or.inl hzombie) with hz | hd
  · exact hz
  · have hdeleted := (hq.life t).deleted hd
    rw [hzombie] at hdeleted
    cases hdeleted

theorem setpgid {pgid : Int}
    (h : GlitchedOS.setpgid fuel k pid pgid = .ok r) : Calm k r.2 := by
  rcases setpgid_ok h with heq | ⟨t, p, heq⟩
  · rw [heq]
    exact refl k
  · rw [heq]
    exact write k t fun _ => rfl

theorem setsid (k : Kernel) : Calm k (GlitchedOS.setsid k).2 := by
  rw [GlitchedOS.setsid]
  split
  · exact refl k
  · exact write k k.current (f := fun x => { x with sid := x.pid, pgid := x.pid }) fun _ => rfl

theorem runNext (h : GlitchedOS.runNext fuel k = .ok k') : Calm k k' := by
  rw [GlitchedOS.runNext, bind_ok_iff] at h
  obtain ⟨k₁, hgc, h⟩ := h
  obtain rfl := Except.ok.inj h
  rw [gcTasks] at hgc
  have hready : Calm k (k.modifyCurrent fun x =>
      if x.state = .running then { x with state := .ready } else x) := by
    refine modifyTask k k.current ?_
    split
    · exact .of_state rfl rfl rfl (by simp)
    · exact .refl _
  exact hready.trans
    (of_settled ((gcLoop_collected hgc).links Task.settled fun _ _ => rfl))

theorem block
    (hf : ∀ x, (f x).signalHandlers = x.signalHandlers ∧ (f x).signalMask = x.signalMask ∧
      (f x).pendingSignals = x.pendingSignals ∧ (f x).state ≠ .zombie)
    (h : GlitchedOS.runNext fuel (k.modifyCurrent f) = .ok k') : Calm k k' :=
  (setState k k.current hf).trans (runNext h)

theorem sleep {ms : BitVec 64} (h : GlitchedOS.sleep fuel k ms = .ok k') :
    Calm k k' := by
  rw [GlitchedOS.sleep] at h
  split at h
  · obtain rfl := Except.ok.inj h
    exact write k k.current fun _ => rfl
  · refine block ?_ h
    exact fun _ => ⟨rfl, rfl, rfl, by simp⟩

theorem chooseTask (k : Kernel) (t rr : Nat) : Calm k (GlitchedOS.chooseTask k t rr) := by
  have hrunning : Calm k (k.modifyTask t fun x => { x with state := .running }) :=
    setState k t fun _ => ⟨rfl, rfl, rfl, by simp⟩
  exact hrunning

theorem handlerLeft (k : Kernel) : Calm k (GlitchedOS.handlerLeft k) := by
  rw [GlitchedOS.handlerLeft]
  exact write k k.current fun _ => rfl

theorem kworkerExit (k : Kernel) : Calm k (GlitchedOS.kworkerExit k) := by
  rw [GlitchedOS.kworkerExit]
  split
  · exact refl k
  · exact setState k k.current (f := fun x => { x with state := .deleted })
      fun _ => ⟨rfl, rfl, rfl, by simp⟩

theorem sysWaitpid {wstatus : Option Nat} {options : BitVec 32}
    {reports : List (Nat × WaitEvent)}
    (h : GlitchedOS.sysWaitpid fuel k pid wstatus options = .ok (reports, k')) :
    Calm k k' := by
  rw [GlitchedOS.sysWaitpid, bind_ok_iff] at h
  obtain ⟨⟨r, k₁⟩, hwait, h⟩ := h
  refine (enterSyscall k 53).trans ?_
  rcases waitpid_ok hwait with ⟨ret, -, rfl, rfl⟩ | ⟨child, event, -, hevent, rfl, rfl⟩ |
      ⟨rfl, target, -, hnext⟩
  · obtain ⟨-, rfl⟩ := Prod.mk.inj (Except.ok.inj h)
    exact enterSyscall _ _
  · obtain ⟨-, rfl⟩ := Prod.mk.inj (Except.ok.inj h)
    refine leaveSyscall (of_waitOnly ?_ (report_life hevent _ _ _))
    exact (WaitOnly.storeStatus _ _ _ _).trans (.consumeEvent _ _ _)
  · obtain ⟨-, rfl⟩ := Prod.mk.inj (Except.ok.inj h)
    refine block ?_ hnext
    exact fun _ => ⟨rfl, rfl, rfl, by simp⟩

end Calm

/-! ### Delivery -/

theorem deliverSignal_other (set : BitVec 32) {i j : Nat} (x : Task) (hij : i ≠ j) :
    (deliverSignal set i x).1.pendingSignals.getLsbD j = x.pendingSignals.getLsbD j := by
  have hother := (Context.deliverSignal_other ⟨x, zeroRegisters, (), zeroRegisters, ()⟩ set
    (show 1 ≤ j + 1 by omega) (show i + 1 ≠ j + 1 by omega)).2
  rw [(Context.deliverSignal_task set i ⟨x, zeroRegisters, (), zeroRegisters, ()⟩).1] at hother
  exact hother

theorem deliverSignal_calm {set : BitVec 32} {i : Nat} {x : Task}
    (hmask : set.getLsbD i = true → x.signalMask.getLsbD i = false)
    (hpending : set.getLsbD i = true → x.pendingSignals.getLsbD i = true) :
    x.Calm (deliverSignal set i x).1 := by
  obtain ⟨p, f, g, b, hkeep⟩ := deliverSignal_task set i x
  by_cases hbit : set.getLsbD i = true
  · have hsame : ∀ j, x.signalMask.getLsbD j = true → i ≠ j := by
      rintro j hj rfl
      rw [hmask hbit] at hj
      cases hj
    refine ⟨by rw [hkeep]; rfl, by rw [hkeep]; rfl, fun j hj => ?_,
      fun j hj => deliverSignal_other set x (hsame j hj), fun hzombie => ?_⟩
    · by_cases hij : i = j
      · rw [← hij]
        exact hpending hbit
      · rw [deliverSignal_other set x hij] at hj
        exact hj
    · rw [hkeep] at hzombie ⊢
      exact ⟨hzombie, rfl⟩
  · rw [deliverSignal, if_pos (by simpa using hbit)]
    exact .refl x

theorem deliverLoop_calm {set : BitVec 32} {n i : Nat} {x : Task}
    (hmask : ∀ j, set.getLsbD j = true → x.signalMask.getLsbD j = false)
    (hpending : ∀ j, i ≤ j → set.getLsbD j = true → x.pendingSignals.getLsbD j = true) :
    x.Calm (deliverLoop set n i x).1 := by
  induction n generalizing i x with
  | zero => exact .refl x
  | succ n ih =>
      have hround : x.Calm (deliverSignal set i x).1 :=
        deliverSignal_calm (hmask i) (hpending i (Nat.le_refl i))
      have hother : ∀ j, i + 1 ≤ j →
          (deliverSignal set i x).1.pendingSignals.getLsbD j = x.pendingSignals.getLsbD j :=
        fun j hj => deliverSignal_other set x (by omega)
      rw [deliverLoop]
      rcases hdone : deliverSignal set i x with ⟨y, ret⟩
      rw [hdone] at hround hother
      cases ret with
      | some ret => exact hround
      | none =>
          refine hround.trans (ih (fun j hj => ?_) fun j hj hset => ?_)
          · rw [hround.mask]
            exact hmask j hj
          · rw [hother j hj]
            exact hpending j (by omega) hset

theorem deliverSignals_calm (h : deliverSignals env fuel k = .ok k') :
    ∃ k₁, Calm k k₁ ∧ k₁.current = k.current ∧
      (k' = k₁ ∨ ∃ ret, exit env fuel k₁ ret = .ok k') := by
  rw [deliverSignals] at h
  dsimp only at h
  split at h
  · exact ⟨k, .refl k, rfl, .inl (Except.ok.inj h).symm⟩
  split at h
  · exact ⟨k, .refl k, rfl, .inl (Except.ok.inj h).symm⟩
  have hloop : k.currentTask.Calm (deliverLoop (k.currentTask.pendingSignals &&&
      ~~~k.currentTask.signalMask) 31 0 k.currentTask).1 := by
    refine deliverLoop_calm (fun j hj => ?_) fun j _ hj => ?_
    · rw [BitVec.getLsbD_and, BitVec.getLsbD_not, Bool.and_eq_true, Bool.and_eq_true] at hj
      simpa using hj.2.2
    · rw [BitVec.getLsbD_and, Bool.and_eq_true] at hj
      exact hj.1
  refine ⟨_, .modifyTask k k.current (f := fun _ => _) hloop, rfl, ?_⟩
  split at h
  · exact .inl (Except.ok.inj h).symm
  · exact .inr ⟨_, h⟩

/-! ### Ending the current task -/

/-- The current task has ended with `ret`, and the processor is given up. -/
structure Exited (k : Kernel) (ret : Int) (k' : Kernel) : Prop where
  current : k'.current = k.current
  switching : k'.switching = true
  state : (k'.tasks k.current).state = .zombie
  returnCode : (k'.tasks k.current).returnCode = ret

theorem exit_exited {ret : Int}
    (hexit : GlitchedOS.exit env fuel k ret = .ok k') : Exited k ret k' := by
  obtain ⟨k₁, -, hk₁, htask⟩ := exit_ok hexit
  have hcurrent : k₁.current = k.current := by
    rw [hk₁]
    exact (FilesOnly.releaseProcessFds env k).current
  obtain ⟨parent, k₂, -, hreparent, rfl⟩ := exitTask_ok htask
  have hlinks := LinksOnly.reparent hreparent
  have htold : ∀ {α : Type} (π : Task → α), (∀ x p, π { x with pendingSignals := p } = π x) →
      (∀ x l, π (Task.withLinks x l) = π x) → π (k₂.tasks k.current) =
        π { k₁.tasks k.current with state := .zombie, returnCode := ret } := by
    intro α π hpending hπ
    rw [hlinks.proj π hπ, Kernel.modifyTask_proj π _ _ _ (hpending _ _), ← hcurrent,
      Kernel.modifyCurrent, Kernel.modifyTask_self]
  refine ⟨?_, rfl, htold Task.state (fun _ _ => rfl) fun _ _ => rfl,
    htold Task.returnCode (fun _ _ => rfl) fun _ _ => rfl⟩
  obtain ⟨_, hk₂⟩ := hlinks
  rw [hk₂]
  exact hcurrent

theorem deliverSignals_current
    (hdeliver : GlitchedOS.deliverSignals env fuel k = .ok k') : k'.current = k.current := by
  obtain ⟨k₁, -, hcurrent, rfl | ⟨ret, hexit⟩⟩ := deliverSignals_calm hdeliver
  · exact hcurrent
  · exact (exit_exited hexit).current.trans hcurrent

/-! ### Sending a signal -/

/-- What `signal_task` makes of the task for a signal other than `SIGCONT`. -/
def Task.sent (x : Task) (sig : Nat) : Task :=
  if stops x sig then
    { x with state := .stopped
             pendingSignals := (x.pendingSignals ||| sigBit sig) &&& ~~~sigBit sig
             stopSignal := sig
             waitpidEvent := 1 }
  else { x with pendingSignals := x.pendingSignals ||| sigBit sig }

/-- What the parent is told. -/
def Task.told (x : Task) : Task :=
  { x with pendingSignals := x.pendingSignals ||| sigBit sigChld }

theorem signalTask_eq (k : Kernel) (t sig : Nat) :
    signalTask k t sig =
      if stops (k.tasks t) sig then notifyParent (k.modifyTask t (·.sent sig)) t
      else if sig = sigCont ∧ (k.tasks t).state = .stopped then
        notifyParent ((k.modifyTask t (·.sent sig)).modifyTask t fun x =>
          { x with state := .ready, waitpidEvent := 2 }) t
      else k.modifyTask t (·.sent sig) := by
  have hstops : ∀ p, stops { k.tasks t with pendingSignals := p } sig =
      stops (k.tasks t) sig := fun _ => rfl
  have hwrite : ∀ f g : Task → Task, f (k.tasks t) = g (k.tasks t) →
      k.modifyTask t f = k.modifyTask t g := by
    intro f g hsame
    rw [Kernel.modifyTask, Kernel.modifyTask, hsame]
  rw [signalTask, Kernel.modifyTask_self, hstops]
  by_cases hstop : stops (k.tasks t) sig = true
  · rw [if_pos hstop, if_pos hstop, if_neg fun h => stops_ne_sigCont hstop h.1,
      Kernel.modifyTask_modifyTask]
    rw [hwrite _ (·.sent sig)]
    rw [Task.sent, if_pos hstop]
  · rw [if_neg hstop, if_neg hstop, Kernel.modifyTask_self]
    have hsent : (k.modifyTask t fun x =>
        { x with pendingSignals := x.pendingSignals ||| sigBit sig }) =
          k.modifyTask t (·.sent sig) := by
      refine hwrite _ _ ?_
      rw [Task.sent, if_neg hstop]
    rw [hsent]

theorem notifyParent_apply (k : Kernel) (t u : Nat) :
    (notifyParent k t).tasks u = k.tasks u ∨ (notifyParent k t).tasks u = (k.tasks u).told := by
  rw [notifyParent]
  split
  · exact .inl rfl
  · rw [Kernel.modifyTask_apply]
    split
    · rename_i heq
      rw [heq]
      exact .inr rfl
    · exact .inl rfl

theorem signalTask_ne (k : Kernel) {t u : Nat} (sig : Nat) (hne : u ≠ t) :
    (signalTask k t sig).tasks u = k.tasks u ∨
      (signalTask k t sig).tasks u = (k.tasks u).told := by
  rw [signalTask_eq]
  split
  · have htold := notifyParent_apply (k.modifyTask t (·.sent sig)) t u
    rw [Kernel.modifyTask_ne _ _ hne] at htold
    exact htold
  split
  · have htold := notifyParent_apply ((k.modifyTask t (·.sent sig)).modifyTask t fun x =>
      { x with state := .ready, waitpidEvent := 2 }) t u
    rw [Kernel.modifyTask_ne _ _ hne, Kernel.modifyTask_ne _ _ hne] at htold
    exact htold
  · exact .inl (Kernel.modifyTask_ne _ _ hne)

/-! ### Invariants of every task -/

variable {ends free : Nat → Prop} {sends : Nat → Task → Nat → Prop}
  {sets : Nat → Task → Nat → Handler → Prop} {P : Nat → Task → Prop}

/-- Every task has the property. -/
def Holds (P : Nat → Task → Prop) (k : Kernel) : Prop := ∀ t, P t (k.tasks t)

/-- A property of each task that all writes keep.  A task `t` is ended only where `ends t`
holds, and made or its mask set only where `free t` does; the signal `sig` is sent to it where
`sends t x sig` holds, and a handler set where `sets t x sig handler` does. -/
structure StepInvariant (ends free : Nat → Prop) (sends : Nat → Task → Nat → Prop)
    (sets : Nat → Task → Nat → Handler → Prop) (P : Nat → Task → Prop) : Prop where
  calm : ∀ {t x y}, P t x → x.Calm y → P t y
  copy : ∀ {t u x y}, free u → P t x → x.Calm y → y.state ≠ .zombie → P u y
  told : ∀ {t x}, P t x → P t x.told
  sent : ∀ {t x sig}, sends t x sig → P t x → P t (x.sent sig)
  sendsTold : ∀ {t x sig}, sends t x sig → sends t x.told sig
  sigaction : ∀ {t x sig handler}, sets t x sig handler → ¬(sig = sigStop ∨ sig = sigKill) →
    P t x → P t { x with signalHandlers := Function.update x.signalHandlers sig handler }
  sigprocmask : ∀ {t x} mask, free t → P t x →
    P t { x with signalMask := mask &&& ~~~(sigBit sigStop ||| sigBit sigKill) }
  exit : ∀ {t x} ret, ends t → P t x → P t { x with state := .zombie, returnCode := ret }

def SignalOp.Allowed (free : Nat → Prop) (sends : Nat → Task → Nat → Prop)
    (sets : Nat → Task → Nat → Handler → Prop) (k : Kernel) : SignalOp → Prop
  | .sys (.createKworker new _) | .sys (.fork new) | .sys (.spawn _ _ _ new)
  | .sys (.execve _ _ _ new) => free new
  | .sys (.sigprocmask _ _) => free k.current
  | .sys (.sigaction sig handler) => sets k.current k.currentTask sig handler
  | .sys (.kill pid sig) => ∀ t, killTarget k pid t = true → (k.tasks t).state ≠ .deleted →
      sends t (k.tasks t) sig
  | .sys (.raise sig) => sends k.current k.currentTask sig
  | _ => True

theorem SignalOp.Allowed.of_true (op : SignalOp) (k : Kernel) :
    op.Allowed (fun _ => True) (fun _ _ _ => True) (fun _ _ _ _ => True) k := by
  rw [Allowed.eq_def]
  split <;> simp

theorem Holds.modifyTask (hall : Holds P k) (t : Nat)
    (hf : P t (f (k.tasks t))) : Holds P (k.modifyTask t f) := by
  intro u
  rw [Kernel.modifyTask_apply]
  split
  · rename_i heq
    rw [heq]
    exact hf
  · exact hall u

namespace StepInvariant

theorem of_calm (h : StepInvariant ends free sends sets P) (hall : Holds P k) (ha : Calm k k') :
    Holds P k' := fun t => h.calm (hall t) (ha t)

theorem holds_sigaction (h : StepInvariant ends free sends sets P) (hall : Holds P k)
    {sig : Nat} {handler : Handler} (hsets : sets k.current k.currentTask sig handler) :
    Holds P (GlitchedOS.sigaction k sig handler).2 := by
  rw [GlitchedOS.sigaction]
  split
  · exact hall
  split
  · exact hall
  · rename_i hsig
    exact hall.modifyTask k.current (f := fun x =>
      { x with signalHandlers := Function.update x.signalHandlers sig handler })
      (h.sigaction hsets hsig (hall _))

theorem holds_sigprocmask (h : StepInvariant ends free sends sets P) (hall : Holds P k)
    (hfree : free k.current) (how : Int) (set : BitVec 32) :
    Holds P (GlitchedOS.sigprocmask k how set).2 := by
  have hinstall : ∀ mask : BitVec 32, Holds P (k.modifyCurrent fun x =>
      { x with signalMask := mask &&& ~~~(sigBit sigStop ||| sigBit sigKill) }) :=
    fun mask => hall.modifyTask k.current (h.sigprocmask mask hfree (hall _))
  rw [GlitchedOS.sigprocmask]
  dsimp only
  split
  · exact hinstall _
  split
  · exact hinstall _
  split
  · exact hinstall _
  · exact hall

theorem holds_exit (h : StepInvariant ends free sends sets P) (hall : Holds P k)
    (hends : ends k.current) {ret : Int}
    (hexit : GlitchedOS.exit env fuel k ret = .ok k') : Holds P k' := by
  obtain ⟨k₁, -, hk₁, htask⟩ := exit_ok hexit
  have hclosed : FilesOnly k k₁ := by
    rw [hk₁]
    exact .releaseProcessFds env k
  obtain ⟨parent, k₂, -, hreparent, rfl⟩ := exitTask_ok htask
  have hzombie : Holds P (k₁.modifyCurrent fun x =>
      { x with state := .zombie, returnCode := ret }) := by
    have hall₁ := h.of_calm hall (.of_filesOnly hclosed)
    refine hall₁.modifyTask k₁.current (h.exit ret ?_ (hall₁ _))
    rw [hclosed.current]
    exact hends
  have htold := hzombie.modifyTask parent (f := Task.told) (h.told (hzombie parent))
  have hdone := h.of_calm htold (.of_linksOnly (.reparent hreparent))
  exact hdone

theorem holds_deliverSignals (h : StepInvariant ends free sends sets P) (hall : Holds P k)
    (hends : ends k.current)
    (hdeliver : GlitchedOS.deliverSignals env fuel k = .ok k') : Holds P k' := by
  obtain ⟨k₁, hcalm, hcurrent, rfl | ⟨ret, hexit⟩⟩ := deliverSignals_calm hdeliver
  · exact h.of_calm hall hcalm
  · exact h.holds_exit (h.of_calm hall hcalm) (by rwa [hcurrent]) hexit

theorem holds_signalTask (h : StepInvariant ends free sends sets P) (hall : Holds P k)
    {t sig : Nat} (hsends : sends t (k.tasks t) sig) : Holds P (signalTask k t sig) := by
  have htold : ∀ {k : Kernel}, Holds P k → Holds P (notifyParent k t) := by
    intro k hall
    rw [notifyParent]
    split
    · exact hall
    · rename_i parent _
      exact hall.modifyTask parent (f := Task.told) (h.told (hall parent))
  have hsent := hall.modifyTask t (f := (·.sent sig)) (h.sent hsends (hall t))
  rw [signalTask_eq]
  split
  · exact htold hsent
  split
  · exact htold (h.of_calm hsent (.setState _ t (f := fun x =>
      { x with state := .ready, waitpidEvent := 2 }) fun _ => ⟨rfl, rfl, rfl, by simp⟩))
  · exact hsent

/-- The tasks that `kill` has not come to yet are only told of their children. -/
theorem holds_killLoop (h : StepInvariant ends free sends sets P) {sig : Nat}
    {l : List Nat} (hnodup : l.Nodup) (hall : Holds P k)
    (hsends : ∀ t ∈ l, killTarget k pid t = true → (k.tasks t).state ≠ .deleted →
      sends t (k.tasks t) sig) : Holds P (killLoop pid sig l k).2 := by
  induction l generalizing k with
  | nil => exact hall
  | cons t rest ih =>
      obtain ⟨hnot, hnodup⟩ := List.nodup_cons.mp hnodup
      rw [killLoop]
      split
      · rename_i htarget
        rw [Bool.and_eq_true, decide_eq_true_iff] at htarget
        have hfirst := hsends t List.mem_cons_self htarget.1 htarget.2
        refine ih hnodup (h.holds_signalTask hall hfirst) fun u hu htarget halive => ?_
        have hne : u ≠ t := fun heq => hnot (heq ▸ hu)
        rw [killTarget_signalTask] at htarget
        rcases signalTask_ne k sig hne with hsame | hsame
        · rw [hsame] at halive ⊢
          exact hsends u (List.mem_cons_of_mem t hu) htarget halive
        · rw [hsame] at halive ⊢
          exact h.sendsTold (hsends u (List.mem_cons_of_mem t hu) htarget halive)
      · exact ih hnodup hall fun u hu => hsends u (List.mem_cons_of_mem t hu)

theorem holds_switchTask (h : StepInvariant ends free sends sets P) (hall : Holds P k)
    (hswitch : GlitchedOS.switchTask env fuel k = .ok k')
    (hends : ends k'.current) : Holds P k' := by
  obtain ⟨next, rr, -, hdeliver⟩ := switchTask_ok hswitch
  rw [deliverSignals_current hdeliver] at hends
  exact h.holds_deliverSignals (h.of_calm hall (.chooseTask k _ rr)) hends hdeliver

/-! ### New tasks -/

theorem holds_allocTask (h : StepInvariant ends free sends sets P) (hall : Holds P k)
    {u : Nat} (hfree : free new) {phys : PhysMem} {x : Task} (hx : (k.tasks u).Calm x)
    (hstate : x.state ≠ .zombie) :
    Holds P (allocTask k new phys x) := by
  intro t
  by_cases ht : t = new
  · rw [ht, allocTask_new]
    exact h.copy hfree (hall u) hx hstate
  · rw [allocTask_ne k phys x ht]
    exact hall t

theorem holds_fork (h : StepInvariant ends free sends sets P) (hall : Holds P k)
    (hfree : free new) (hfork : GlitchedOS.fork k new = .ok k') : Holds P k' := by
  obtain ⟨cr3, phys, k₁, -, hk₁, rfl⟩ := fork_ok hfork
  have hmade : Holds P k₁ := by
    rw [hk₁]
    have hcopy : Holds P (allocTask k new phys
        { k.currentTask with state := .ready, cr3 := cr3 }) :=
      h.holds_allocTask hall hfree (u := k.current) (.of_state rfl rfl rfl (by simp)) (by simp)
    exact h.of_calm hcopy (.of_filesOnly (.addRefs _ _))
  refine h.of_calm hmade fun t => ?_
  have hlink := LinksOnly.linkTask k₁ new k₁.current
  have hpending : ((forkLink k₁ new).tasks t).pendingSignals = (k₁.tasks t).pendingSignals := by
    rw [forkLink_proj Task.pendingSignals (fun _ _ _ _ => rfl)]
    exact hlink.proj Task.pendingSignals (fun _ _ => rfl) t
  refine ⟨?_, ?_, fun i hi => hpending ▸ hi, fun i _ => by rw [hpending],
    fun hzombie => ⟨?_, ?_⟩⟩
  · rw [forkLink_proj Task.signalHandlers (fun _ _ _ _ => rfl)]
    exact hlink.proj Task.signalHandlers (fun _ _ => rfl) t
  · rw [forkLink_proj Task.signalMask (fun _ _ _ _ => rfl)]
    exact hlink.proj Task.signalMask (fun _ _ => rfl) t
  · rw [forkLink_state] at hzombie
    split at hzombie
    · cases hzombie
    · exact hzombie
  · rw [forkLink_proj Task.returnCode (fun _ _ _ _ => rfl)]
    exact hlink.proj Task.returnCode (fun _ _ => rfl) t

theorem holds_createKworker (h : StepInvariant ends free sends sets P) (hall : Holds P k)
    (hfree : free new) {regs : Iframe}
    (hmake : GlitchedOS.createKworker k new regs = .ok k') : Holds P k' := by
  obtain ⟨cr3, phys, -, rfl⟩ := createKworker_ok hmake
  have hnumber : Holds P { k with lastPid := k.lastPid + 1 } := hall
  have hcopy : Holds P (allocTask { k with lastPid := k.lastPid + 1 } new phys
      (kworkerTask k cr3 regs)) :=
    h.holds_allocTask hnumber hfree (u := initTask) (.of_state rfl rfl rfl (by simp [kworkerTask]))
      (by simp [kworkerTask])
  exact h.of_calm hcopy (.write _ k.current fun _ => rfl)

theorem holds_spawnActions (h : StepInvariant ends free sends sets P)
    (hfree : free new) {actions : List SpawnAction}
    (hall : Holds P k) (hrun : spawnActions env fuel new pid actions k = .ok r) : Holds P r.2 := by
  have hone : ∀ {k : Kernel} {a : SpawnAction} {r : Int × Kernel}, Holds P k →
      spawnAction env fuel k new pid a = .ok r → Holds P r.2 := by
    intro k a r hall hrun
    have hback : ∀ {k₁ : Kernel}, Calm { k with current := new } k₁ →
        Holds P { k₁ with current := k.current } := fun ha t => h.calm (hall t) (ha t)
    have hmask : Holds P { k with current := new } := hall
    rw [spawnAction] at hrun
    dsimp only at hrun
    split at hrun
    · obtain rfl := Except.ok.inj hrun
      exact hback (.of_filesOnly (.dup2 env _ a.oldfd a.newfd))
    · obtain rfl := Except.ok.inj hrun
      exact h.holds_sigprocmask hmask hfree a.sigmaskHow a.sigmask
    · rw [bind_ok_iff] at hrun
      obtain ⟨r', hset, hrun⟩ := hrun
      obtain rfl := Except.ok.inj hrun
      exact hback (.setpgid hset)
    · obtain rfl := Except.ok.inj hrun
      exact hback (.setsid _)
    · obtain rfl := Except.ok.inj hrun
      exact hall
  induction actions generalizing k with
  | nil =>
      obtain rfl := Except.ok.inj hrun
      exact hall
  | cons a rest ih =>
      rw [spawnActions, bind_ok_iff] at hrun
      obtain ⟨⟨res, k₁⟩, hfirst, hrun⟩ := hrun
      dsimp only at hrun
      split at hrun
      · obtain rfl := Except.ok.inj hrun
        exact hone hall hfirst
      · exact ih (hone hall hfirst) hrun

theorem holds_startTask (h : StepInvariant ends free sends sets P) (hall : Holds P k)
    {env : ExecEnv}
    {parent : Option Nat}
    (hstart : startTask env k parent pid new = .ok r) : Holds P r.2 := by
  rw [startTask, bind_ok_iff] at hstart
  obtain ⟨⟨res, program, k₁⟩, hload, hstart⟩ := hstart
  obtain ⟨phys, rfl⟩ := loadProgram_phys hload
  have hloaded : Holds P { k with phys := phys } := hall
  dsimp only at hstart
  split at hstart
  · obtain rfl := Except.ok.inj hstart
    exact hloaded
  split at hstart
  · cases hstart
  · obtain rfl := Except.ok.inj hstart
    refine h.of_calm hloaded (.trans ?_ (.of_linksOnly (.linkTask _ new _)))
    exact .write _ new fun _ => rfl

theorem holds_newTask (h : StepInvariant ends free sends sets P) (hall : Holds P k)
    (hfree : free new) (hnew : newTask k new pid = .ok k') : Holds P k' := by
  obtain ⟨cr3, phys, -, rfl⟩ := newTask_ok hnew
  have hcopy : Holds P (allocTask k new phys { k.currentTask with
      state := .ready, inSignal := false, cr3 := cr3, pid := pid }) :=
    h.holds_allocTask hall hfree (u := k.current) (.of_state rfl rfl rfl (by simp)) (by simp)
  exact h.of_calm hcopy (.of_filesOnly (.addRefs _ _))

theorem holds_addTask (h : StepInvariant ends free sends sets P) (hall : Holds P k)
    {env : ExecEnv} (hfree : free new) {args : ExecArgs} {parent : Option Nat}
    (hadd : addTask env fuel k args parent pid new = .ok r) : Holds P r.2 := by
  rw [addTask] at hadd
  split at hadd
  · obtain rfl := Except.ok.inj hadd
    exact hall
  rw [bind_ok_iff] at hadd
  obtain ⟨k₁, hnew, hadd⟩ := hadd
  rw [bind_ok_iff] at hadd
  obtain ⟨⟨res, k₂⟩, hactions, hadd⟩ := hadd
  have hacted : Holds P k₂ := h.holds_spawnActions hfree (h.holds_newTask hall hfree hnew) hactions
  dsimp only at hadd
  split at hadd
  · obtain rfl := Except.ok.inj hadd
    exact hacted
  · exact h.holds_startTask (h.of_calm hacted (.of_filesOnly (.closeOnExec _ _ _))) hadd

theorem holds_sysSpawn (h : StepInvariant ends free sends sets P) (hall : Holds P k)
    {env : ExecEnv} (hfree : free new) {pathRes : Int} {args : ExecArgs}
    (hspawn : sysSpawn env fuel k pathRes args new = .ok k') : Holds P k' := by
  have henter := h.of_calm hall (.enterSyscall k 54)
  rw [sysSpawn] at hspawn
  dsimp only at hspawn
  split at hspawn
  · obtain rfl := Except.ok.inj hspawn
    exact h.of_calm henter (.enterSyscall _ _)
  rw [bind_ok_iff] at hspawn
  obtain ⟨⟨res, k₁⟩, hrun, hspawn⟩ := hspawn
  obtain ⟨k₂, hadd, hend⟩ := spawn_ok hrun
  have hnumber : Holds P { enterSyscall k 54 with
      lastPid := (enterSyscall k 54).lastPid + 1 } := henter
  have hmade : Holds P k₂ := h.holds_addTask hnumber hfree hadd
  have hdone : Holds P k₁ := by
    rcases hend with ⟨-, rfl⟩ | ⟨-, rfl⟩
    · exact hmade
    · exact h.of_calm hmade (.setState k₂ k₂.current (f := fun x =>
        { x with state := .ready, iframe := { x.iframe with rax := res } })
        fun _ => ⟨rfl, rfl, rfl, by simp⟩)
  dsimp only at hspawn
  split at hspawn
  · obtain rfl := Except.ok.inj hspawn
    exact hdone
  · obtain rfl := Except.ok.inj hspawn
    exact h.of_calm hdone (.enterSyscall _ _)

theorem holds_sysExecve (h : StepInvariant ends free sends sets P) (hall : Holds P k)
    {env : ExecEnv} (hfree : free new) {pathRes : Int} {args : ExecArgs}
    (hexec : sysExecve env fuel k pathRes args new = .ok k') : Holds P k' := by
  have henter := h.of_calm hall (.enterSyscall k 12)
  rw [sysExecve] at hexec
  dsimp only at hexec
  split at hexec
  · obtain rfl := Except.ok.inj hexec
    exact h.of_calm henter (.enterSyscall _ _)
  rw [bind_ok_iff] at hexec
  obtain ⟨⟨res, k₁⟩, hrun, hexec⟩ := hexec
  obtain ⟨k₂, hadd, hend⟩ := execve_ok hrun
  have hmade : Holds P k₂ := h.holds_addTask henter hfree hadd
  have hdone : Holds P k₁ := by
    rcases hend with ⟨-, rfl⟩ | ⟨-, ring, k₃, k₄, -, hk₃, hk₄, hfinish⟩
    · exact hmade
    obtain ⟨k₅, hreparent, rfl⟩ := execveFinish_ok hfinish
    have hdeleted := h.of_calm hmade (.setState k₂ (enterSyscall k 12).current
      (f := fun x => { x with state := .deleted }) fun _ => ⟨rfl, rfl, rfl, by simp⟩)
    have hwaiters : Holds P k₃ := by
      rw [hk₃]
      exact h.of_calm hdeleted (.of_settled
        (redirectWaiters_proj Task.settled (fun _ _ => rfl) _ new _ _))
    have hclosed : Holds P k₄ := by
      rw [hk₄]
      exact h.of_calm hwaiters (.of_filesOnly (.releaseProcessFds env.closeEnv k₃))
    have hchildren := h.of_calm hclosed (.of_linksOnly (.reparent hreparent))
    exact hchildren
  dsimp only at hexec
  split at hexec
  · obtain rfl := Except.ok.inj hexec
    exact hdone
  · obtain rfl := Except.ok.inj hexec
    exact h.of_calm hdone (.enterSyscall _ _)

/-! ### Steps and runs -/

/-- A system call of the descriptors or the mounts, or one that answers at once. -/
theorem holds_plain (h : StepInvariant ends free sends sets P) (hall : Holds P k) {op : Op}
    {reports : List (Nat × WaitEvent)} (hplain : op.plain = true)
    (hallowed : (SignalOp.sys op).Allowed free sends sets k)
    (hrun : op.run fuel k = .ok (reports, k')) : Holds P k' := by
  cases op with
  | userCode regs =>
      obtain ⟨-, rfl⟩ := Prod.mk.inj (Except.ok.inj hrun)
      exact h.of_calm hall (.write k k.current fun _ => rfl)
  | sigaction sig handler =>
      obtain ⟨-, rfl⟩ := Prod.mk.inj (Except.ok.inj hrun)
      exact h.of_calm (h.holds_sigaction hall hallowed) (.enterSyscall _ _)
  | sigprocmask how set =>
      obtain ⟨-, rfl⟩ := Prod.mk.inj (Except.ok.inj hrun)
      exact h.of_calm (h.holds_sigprocmask hall hallowed how set) (.enterSyscall _ _)
  | setpgid pid pgid =>
      rw [Op.run, bind_ok_iff] at hrun
      obtain ⟨r, hset, hk⟩ := hrun
      obtain ⟨-, rfl⟩ := Prod.mk.inj (Except.ok.inj hk)
      exact h.of_calm hall (.leaveSyscall (.setpgid hset))
  | setsid =>
      obtain ⟨-, rfl⟩ := Prod.mk.inj (Except.ok.inj hrun)
      exact h.of_calm hall (.leaveSyscall (.setsid k))
  | fdOpen _ _ | fdClose _ _ | fcntl _ _ _ | dup2 _ _ _ | pipe _ | fdSocket _ _
  | mount _ _ _ _ | unmount _ _ _ =>
      obtain ⟨r, hfiles, rfl⟩ := Op.files_ok rfl hrun
      exact h.of_calm hall (.leaveSyscall (.of_filesOnly hfiles))
  | switchTask _ | deliverSignals _ | runNext | checkBlockedTasks _ | createKworker _ _
  | kworkerExit | sleep _ | fork _ | spawn _ _ _ _ | execve _ _ _ _ | exit _ _
  | waitpid _ _ _ | kill _ _ | raise _ => cases hplain

/-- An operation of the system keeps the property, if the task that runs after it may end. -/
theorem holds_run (h : StepInvariant ends free sends sets P) (hall : Holds P k) {op : Op}
    {reports : List (Nat × WaitEvent)}
    (hallowed : (SignalOp.sys op).Allowed free sends sets k)
    (hrun : op.run fuel k = .ok (reports, k')) (hends : ends k'.current) : Holds P k' := by
  cases op with
  | switchTask env =>
      replace hrun := reportsNone_ok hrun
      exact h.holds_switchTask hall hrun hends
  | deliverSignals env =>
      replace hrun := reportsNone_ok hrun
      rw [deliverSignals_current hrun] at hends
      exact h.holds_deliverSignals hall hends hrun
  | runNext =>
      replace hrun := reportsNone_ok hrun
      exact h.of_calm hall (.runNext hrun)
  | checkBlockedTasks reduceTicks =>
      rw [Op.run, GlitchedOS.checkBlockedTasks, bind_ok_iff] at hrun
      obtain ⟨ring, -, hrun⟩ := hrun
      exact h.of_calm hall (.of_waitOnly (.checkBlockedLoop hrun) (checkBlockedLoop_life hrun))
  | createKworker new regs =>
      replace hrun := reportsNone_ok hrun
      exact h.holds_createKworker hall hallowed hrun
  | kworkerExit =>
      obtain ⟨-, rfl⟩ := Prod.mk.inj (Except.ok.inj hrun)
      exact h.of_calm hall (.kworkerExit k)
  | sleep ms =>
      replace hrun := reportsNone_ok hrun
      exact h.of_calm hall (.trans (.enterSyscall k 16) (.sleep hrun))
  | fork new =>
      replace hrun := reportsNone_ok hrun
      exact h.holds_fork (h.of_calm hall (.enterSyscall k 11)) hallowed hrun
  | spawn env pathRes args new =>
      replace hrun := reportsNone_ok hrun
      exact h.holds_sysSpawn hall hallowed hrun
  | execve env pathRes args new =>
      replace hrun := reportsNone_ok hrun
      exact h.holds_sysExecve hall hallowed hrun
  | exit env ret =>
      replace hrun := reportsNone_ok hrun
      rw [(exit_exited hrun).current] at hends
      exact h.holds_exit (h.of_calm hall (.enterSyscall k 0)) hends hrun
  | waitpid pid wstatus options => exact h.of_calm hall (.sysWaitpid hrun)
  | kill pid sig =>
      obtain ⟨-, res, k₁, rfl, hkill⟩ := kill_ok hrun
      refine h.of_calm (k := k₁) ?_ (.enterSyscall _ _)
      obtain ⟨-, rfl⟩ | ⟨-, ring, hring, rfl⟩ := hkill
      · exact hall
      · exact h.holds_killLoop (ringFrom_chain hring).nodup hall fun t _ => hallowed t
  | raise sig =>
      obtain ⟨-, rfl⟩ := Prod.mk.inj (Except.ok.inj hrun)
      refine h.of_calm (k := (GlitchedOS.raise k sig).2) ?_ (.enterSyscall _ _)
      rw [GlitchedOS.raise]
      split
      · exact hall
      · exact h.holds_signalTask hall hallowed
  | userCode _ | sigaction _ _ | fdOpen _ _ | fdClose _ _ | fcntl _ _ _ | dup2 _ _ _
  | pipe _ | fdSocket _ _ | sigprocmask _ _ | setpgid _ _ | setsid | mount _ _ _ _
  | unmount _ _ _ => exact h.holds_plain hall rfl hallowed hrun

/-- One step of the system with `sigreturn`. -/
theorem step (h : StepInvariant ends free sends sets P) (hall : Holds P k) {op : SignalOp}
    (hallowed : op.Allowed free sends sets k) (hrun : op.run fuel k = .ok k')
    (hends : ends k'.current) : Holds P k' := by
  cases op with
  | sigreturn env =>
      rw [SignalOp.run, sysSigreturn] at hrun
      split at hrun
      · obtain rfl := Except.ok.inj hrun
        exact h.of_calm hall (.leaveSyscall (.refl k))
      · rw [deliverSignals_current hrun] at hends
        exact h.holds_deliverSignals (h.of_calm hall (.handlerLeft k)) hends hrun
  | sys op =>
      rw [SignalOp.run, bind_ok_iff] at hrun
      obtain ⟨⟨reports, k₁⟩, hrun, hk⟩ := hrun
      obtain rfl := Except.ok.inj hk
      exact h.holds_run hall hallowed hrun hends

end StepInvariant

end GlitchedOS
