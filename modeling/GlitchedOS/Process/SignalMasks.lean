/-
Masked signals.  `deliver_signals` looks at the mask before a handler is entered or the task
is ended; `signal_task` does not look at it before it stops the task.
-/
import GlitchedOS.Process.Interruptions

namespace GlitchedOS

variable {k k' d : Kernel} {sig : Nat}

def pend (k : Kernel) (t sig : Nat) : Kernel :=
  k.modifyTask t fun x => { x with pendingSignals := x.pendingSignals ||| sigBit sig }

def pendAll (k : Kernel) (targets : List Nat) (sig : Nat) : Kernel :=
  targets.foldl (fun k t => pend k t sig) k

/-- Those of the tasks that `kill` signals. -/
def killTargets (k : Kernel) (pid : Int) (ring : List Nat) : List Nat :=
  ring.filter fun t => killTarget k pid t && decide ((k.tasks t).state ≠ .deleted)

def masked (sig : Nat) (x : Task) : Bool := x.signalMask.getLsbD (sig - 1)

/-- A step in which the task does not remove the signal from its mask, and the signal does not
stop it. -/
structure MaskedStep (t sig : Nat) (k : Kernel) (op : SignalOp) (k' : Kernel) : Prop where
  step : KernelStep k op k'
  mem : t ∈ k.allocated
  mask : ∀ how set, op = .sys (.sigprocmask how set) → k.current = t →
    masked sig (k'.tasks t) = true
  kill : ∀ pid, op = .sys (.kill pid sig) → killTarget k pid t = true →
    (k.tasks t).state ≠ .deleted → stops (k.tasks t) sig = false
  raise : op = .sys (.raise sig) → k.current = t → stops (k.tasks t) sig = false

/-- The signal has had no effect on the task since `k`: it is masked, is pending if it was, and
neither interrupts a call of the task nor is acted on when signals are delivered to it. -/
structure HeldBack (t sig : Nat) (k k' : Kernel) : Prop where
  masked : masked sig (k'.tasks t) = true
  pending : hasSignal sig (k.tasks t) = true → hasSignal sig (k'.tasks t) = true
  interrupts : disturbs (k'.tasks t) (sig - 1) = false ∧ stopPending (k'.tasks t) (sig - 1) = false
  acts : ∀ d, DeliveryPoint k' d → d.current = t → deliveryActs sig (delivery d) = 0

theorem signalTask_stops {t : Nat} (hstops : stops (k.tasks t) sig = true) :
    ((signalTask k t sig).tasks t).state = .stopped ∧ (k.tasks t).state ≠ .stopped := by
  constructor
  · rw [(signalTask_pending k t sig).proj Task.state fun _ _ => rfl, Kernel.modifyTask_self,
      Task.signalled, if_pos hstops]
  · rw [stops, Bool.and_eq_true, decide_eq_true_iff] at hstops
    exact hstops.2

theorem signalTask_unstopped {t : Nat} (hcont : sig ≠ sigCont)
    (hstops : stops (k.tasks t) sig = false) : signalTask k t sig = pend k t sig := by
  have hnot : ¬stops (k.tasks t) sig = true := by rw [hstops]; exact Bool.false_ne_true
  have hsent : (k.tasks t).sent sig =
      { k.tasks t with pendingSignals := (k.tasks t).pendingSignals ||| sigBit sig } := by
    rw [Task.sent, if_neg hnot]
  rw [signalTask_eq, if_neg hnot, if_neg fun h => hcont h.1, pend, Kernel.modifyTask,
    Kernel.modifyTask, hsent]

theorem pend_state (k : Kernel) (t sig u : Nat) :
    ((pend k t sig).tasks u).state = (k.tasks u).state :=
  Kernel.modifyTask_proj Task.state k t u rfl

theorem pendAll_state (targets : List Nat) (k : Kernel) (sig u : Nat) :
    ((pendAll k targets sig).tasks u).state = (k.tasks u).state := by
  induction targets generalizing k with
  | nil => rfl
  | cons t rest ih => exact (ih (pend k t sig)).trans (pend_state k t sig u)

/-- The signal becomes pending and nothing else happens, unless it stops the task. -/
theorem signalTask_pends_iff (hcont : sig ≠ sigCont) (t : Nat) :
    signalTask k t sig = pend k t sig ↔ stops (k.tasks t) sig = false := by
  refine ⟨fun heq => ?_, signalTask_unstopped hcont⟩
  by_contra hstops
  rw [Bool.not_eq_false] at hstops
  obtain ⟨hafter, hbefore⟩ := signalTask_stops hstops
  rw [heq, pend_state] at hafter
  exact hbefore hafter

theorem stops_pend (k : Kernel) (t sig u : Nat) :
    stops ((pend k t sig).tasks u) sig = stops (k.tasks u) sig :=
  Kernel.modifyTask_proj (stops · sig) k t u rfl

/-- Whom `kill` signals does not depend on pending signals, and not on who was stopped. -/
theorem killTargets_congr {pid : Int} {l : List Nat}
    (htarget : ∀ u, killTarget k' pid u = killTarget k pid u)
    (halive : ∀ u, (k'.tasks u).state = .deleted ↔ (k.tasks u).state = .deleted) :
    killTargets k' pid l = killTargets k pid l := by
  rw [killTargets, killTargets]
  congr 1
  funext u
  simp only [htarget u, ne_eq, halive u]

theorem killTargets_cons (k : Kernel) (pid : Int) (t : Nat) (rest : List Nat) :
    killTargets k pid (t :: rest) =
      if (killTarget k pid t && decide ((k.tasks t).state ≠ .deleted)) = true then
        t :: killTargets k pid rest
      else killTargets k pid rest := by
  rw [killTargets, List.filter_cons, killTargets]

theorem killTargets_pend (k : Kernel) (t sig : Nat) (pid : Int) (l : List Nat) :
    killTargets (pend k t sig) pid l = killTargets k pid l := by
  refine killTargets_congr (fun u => ?_) fun u => by rw [pend_state]
  have hpid := Kernel.modifyTask_proj Task.pid k t u (f := fun x =>
    { x with pendingSignals := x.pendingSignals ||| sigBit sig }) rfl
  have hpgid : ∀ u, ((pend k t sig).tasks u).pgid = (k.tasks u).pgid := fun u =>
    Kernel.modifyTask_proj Task.pgid k t u rfl
  have hcurrent : (pend k t sig).currentTask.pgid = k.currentTask.pgid := hpgid k.current
  rw [killTarget, killTarget, hcurrent, hpgid]
  exact if_congr Iff.rfl (congrArg (fun p => decide (p = pid)) hpid) rfl

theorem signalTask_state (hcont : sig ≠ sigCont) (t u : Nat) :
    ((signalTask k t sig).tasks u).state =
      if u = t ∧ stops (k.tasks t) sig = true then .stopped else (k.tasks u).state := by
  rw [(signalTask_pending k t sig).proj Task.state fun _ _ => rfl, Kernel.modifyTask_apply]
  by_cases hut : u = t
  · subst hut
    rw [if_pos rfl, Task.signalled]
    by_cases hstops : stops (k.tasks u) sig = true
    · rw [if_pos hstops, if_pos ⟨rfl, hstops⟩]
    · rw [if_neg hstops, if_neg fun h => hcont h.1, if_neg fun h => hstops h.2]
  · rw [if_neg hut, if_neg fun h => hut h.1]

theorem stops_signalTask (hcont : sig ≠ sigCont) (t u : Nat) :
    stops ((signalTask k t sig).tasks u) sig =
      (stops (k.tasks u) sig && !(decide (u = t) && stops (k.tasks t) sig)) := by
  have hhandlers := signalTask_proj Task.signalHandlers (fun _ _ => rfl) (fun _ _ _ _ => rfl)
    k t sig u
  rw [stops, hhandlers, signalTask_state hcont]
  by_cases hboth : u = t ∧ stops (k.tasks t) sig = true
  · rw [if_pos hboth]
    simp [hboth.1, hboth.2]
  · rw [if_neg hboth]
    have hright : (decide (u = t) && stops (k.tasks t) sig) = false := by
      rw [← Bool.not_eq_true, Bool.and_eq_true, decide_eq_true_iff]
      exact hboth
    rw [hright, Bool.not_false, Bool.and_true, stops]

theorem killLoop_state (hcont : sig ≠ sigCont) (pid : Int) (l : List Nat) (k : Kernel) (u : Nat) :
    ((killLoop pid sig l k).2.tasks u).state =
      if u ∈ killTargets k pid l ∧ stops (k.tasks u) sig = true then .stopped
      else (k.tasks u).state := by
  induction l generalizing k with
  | nil => simp [killTargets, killLoop]
  | cons t rest ih =>
      rw [killLoop]
      by_cases htarget :
          (killTarget k pid t && decide ((k.tasks t).state ≠ .deleted)) = true
      · have hrest : killTargets (signalTask k t sig) pid rest = killTargets k pid rest := by
          refine killTargets_congr (fun u => killTarget_signalTask pid k t sig u) fun u => ?_
          rw [signalTask_state hcont]
          split
          · rename_i hstopped
            obtain ⟨rfl, -⟩ := hstopped
            rw [Bool.and_eq_true, decide_eq_true_iff] at htarget
            exact ⟨fun h => absurd h (by simp), fun h => absurd h htarget.2⟩
          · exact Iff.rfl
        have hmem : killTargets k pid (t :: rest) = t :: killTargets k pid rest := by
          rw [killTargets_cons, if_pos htarget]
        rw [if_pos htarget]
        dsimp only
        rw [ih, hrest, hmem, stops_signalTask hcont, signalTask_state hcont]
        by_cases hut : u = t
        · subst hut
          cases stops (k.tasks u) sig <;> simp
        · simp [hut]
      · have hmem : killTargets k pid (t :: rest) = killTargets k pid rest := by
          rw [killTargets_cons, if_neg htarget]
        rw [if_neg htarget, ih, hmem]

theorem killLoop_unstopped (hcont : sig ≠ sigCont) {pid : Int} {l : List Nat}
    (hstops : ∀ t ∈ killTargets k pid l, stops (k.tasks t) sig = false) :
    (killLoop pid sig l k).2 = pendAll k (killTargets k pid l) sig := by
  induction l generalizing k with
  | nil => rfl
  | cons t rest ih =>
      rw [killLoop]
      by_cases htarget :
          (killTarget k pid t && decide ((k.tasks t).state ≠ .deleted)) = true
      · have hmem : killTargets k pid (t :: rest) = t :: killTargets k pid rest := by
          rw [killTargets_cons, if_pos htarget]
        rw [hmem] at hstops ⊢
        rw [if_pos htarget]
        dsimp only
        rw [signalTask_unstopped hcont (hstops t List.mem_cons_self)]
        have hrest : ∀ u ∈ killTargets (pend k t sig) pid rest,
            stops ((pend k t sig).tasks u) sig = false := by
          intro u hu
          rw [killTargets_pend] at hu
          rw [stops_pend]
          exact hstops u (List.mem_cons_of_mem t hu)
        rw [ih hrest, killTargets_pend]
        rfl
      · have hmem : killTargets k pid (t :: rest) = killTargets k pid rest := by
          rw [killTargets_cons, if_neg htarget]
        rw [hmem] at hstops ⊢
        rw [if_neg htarget]
        exact ih hstops

/-- `kill` makes the signal pending for the tasks it is sent to and does nothing else, unless
it stops one of them. -/
theorem killLoop_pends_iff (hcont : sig ≠ sigCont) (pid : Int) (l : List Nat) :
    (killLoop pid sig l k).2 = pendAll k (killTargets k pid l) sig ↔
      ∀ t ∈ killTargets k pid l, stops (k.tasks t) sig = false := by
  refine ⟨fun heq t ht => ?_, killLoop_unstopped hcont⟩
  by_contra hstops
  rw [Bool.not_eq_false] at hstops
  have hstate := killLoop_state hcont pid l k t
  rw [if_pos ⟨ht, hstops⟩, heq, pendAll_state] at hstate
  exact (signalTask_stops hstops).2 hstate

/-- The rounds of a delivery do not act on a signal that is not among theirs. -/
theorem deliverLoop_spares {set : BitVec 32} (hsig : 1 ≤ sig) (hset : set.getLsbD (sig - 1) = false)
    (n i : Nat) (c : Context Unit) : deliveryActs sig (c.deliverLoop set n i) = 0 := by
  induction n generalizing i c with
  | zero => simp [Context.deliverLoop, deliveryActs]
  | succ n ih =>
      have hround : deliveryActs sig (c.deliverSignal set i) = 0 := by
        by_cases hi : i + 1 = sig
        · have hbit : set.getLsbD i = false := by rwa [← hi, Nat.add_sub_cancel] at hset
          rw [Context.deliverSignal, GlitchedOS.deliverSignal]
          simp [handles, hbit, deliveryActs]
        · exact (c.deliverSignal_other set hsig hi).1
      rcases c.deliverLoop_succ set n i with ⟨ret, -, heq⟩ | ⟨later, hnone, rfl, heq⟩
      · rw [heq]
        exact hround
      · have hlater := ih (i + 1) (c.deliverSignal set i).2.1
        rcases hdone : c.deliverSignal set i with ⟨entered, c₁, ret⟩
        rw [hdone] at heq hround hnone hlater
        dsimp only at heq hnone hlater
        rw [hnone] at hround
        rw [heq, deliveryActs_append (c := c₁), hround, hlater]

theorem masked_deliverable (hsig : 1 ≤ sig ∧ sig ≤ 31) {x : Task} (hmasked : masked sig x = true) :
    (deliverable x).getLsbD (sig - 1) = false := by
  rw [masked] at hmasked
  rw [getLsbD_deliverable x (by omega), hmasked, Bool.not_true, Bool.and_false]

theorem masked_interrupts (hsig : 1 ≤ sig ∧ sig ≤ 31) {x : Task} (hmasked : masked sig x = true) :
    disturbs x (sig - 1) = false ∧ stopPending x (sig - 1) = false := by
  rw [disturbs, stopPending, masked_deliverable hsig hmasked]
  simp

theorem masked_acts (hsig : 1 ≤ sig ∧ sig ≤ 31) (hmasked : masked sig d.currentTask = true) :
    deliveryActs sig (delivery d) = 0 := by
  rw [delivery, Context.deliverSignals]
  dsimp only
  split
  · simp [deliveryActs]
  split
  · simp [deliveryActs]
  · exact deliverLoop_spares hsig.1 (masked_deliverable hsig hmasked) _ _ _

theorem getLsbD_sent {x : Task} {s : Nat} (hsig : 1 ≤ sig) (hstops : s = sig → stops x sig = false)
    (hpending : hasSignal sig x = true) : hasSignal sig (x.sent s) = true := by
  rw [hasSignal] at hpending ⊢
  rw [Task.sent]
  split
  · rename_i hstopped
    change ((x.pendingSignals ||| sigBit s) &&& ~~~sigBit s).getLsbD (sig - 1) = true
    have hne : s ≠ sig := by
      rintro rfl
      rw [hstops rfl] at hstopped
      cases hstopped
    rw [stops, Bool.and_eq_true, Bool.and_eq_true, decide_eq_true_iff] at hstopped
    have hrange := stop_range hstopped.1.1
    obtain ⟨i, rfl⟩ : ∃ i, s = i + 1 := ⟨s - 1, by omega⟩
    rw [getLsbD_clear, BitVec.getLsbD_or, hpending, decide_eq_false (by omega)]
    rfl
  · change (x.pendingSignals ||| sigBit s).getLsbD (sig - 1) = true
    rw [BitVec.getLsbD_or, hpending, Bool.true_or]

/-- What a masked signal of the task keeps: its bit of the mask, and its pending bit if `b`. -/
def KeptMasked (t sig : Nat) (b : Bool) (u : Nat) (x : Task) : Prop :=
  u = t → masked sig x = true ∧ (b = true → hasSignal sig x = true)

theorem keptMasked_invariant (t : Nat) (hsig : 1 ≤ sig) (b : Bool) :
    StepInvariant (fun _ => True) (fun u => u ≠ t)
      (fun u x s => u = t → s = sig → stops x sig = false) (fun _ _ _ _ => True)
      (KeptMasked t sig b) where
  calm := by
    intro u x y h hcalm hut
    obtain ⟨hmasked, hpending⟩ := h hut
    rw [masked] at hmasked
    refine ⟨by rw [masked, hcalm.mask, hmasked], fun hb => ?_⟩
    rw [hasSignal, hcalm.masked (sig - 1) hmasked]
    exact hpending hb
  copy := fun hfree _ _ _ hut => absurd hut hfree
  told := by
    intro u x h hut
    obtain ⟨hmasked, hpending⟩ := h hut
    refine ⟨hmasked, fun hb => ?_⟩
    have hbit : x.pendingSignals.getLsbD (sig - 1) = true := hpending hb
    rw [hasSignal, Task.told, BitVec.getLsbD_or, hbit, Bool.true_or]
  sent := by
    intro u x s hsends h hut
    obtain ⟨hmasked, hpending⟩ := h hut
    refine ⟨?_, fun hb => getLsbD_sent hsig (hsends hut) (hpending hb)⟩
    rw [Task.sent]
    split <;> exact hmasked
  sendsTold := fun h => h
  sigaction := fun _ _ h => h
  sigprocmask := fun _ hfree _ hut => absurd hut hfree
  exit := fun _ _ h => h

/-- A step as `StepInvariant` asks for it, if it is no `sigprocmask` call of the task. -/
theorem MaskedStep.allowed {t : Nat} {op : SignalOp} (h : MaskedStep t sig k op k')
    (hother : ∀ how set, op = .sys (.sigprocmask how set) → k.current ≠ t) :
    op.Allowed (fun u => u ≠ t) (fun u x s => u = t → s = sig → stops x sig = false)
      (fun _ _ _ _ => True) k := by
  have hmem := h.mem
  have henabled := h.step.1
  have hnew : ∀ {new : Nat}, new ∉ k.allocated → new ≠ t := by
    rintro new hnew rfl
    exact hnew hmem
  cases op with
  | sigreturn env => trivial
  | sys op =>
      cases op with
      | createKworker new regs => exact hnew henabled.2
      | fork new => exact hnew henabled.2.2
      | spawn env pathRes args new => exact hnew henabled.2.2
      | execve env pathRes args new => exact hnew henabled.2.2
      | sigprocmask how set => exact hother how set rfl
      | kill pid s =>
          rintro u htarget hstate rfl rfl
          exact h.kill pid rfl htarget hstate
      | raise s =>
          rintro hcurrent rfl
          have hstops := h.raise rfl hcurrent
          rwa [← hcurrent] at hstops
      | _ => trivial

theorem MaskedStep.kept {t : Nat} {b : Bool} {op : SignalOp} (hsig : 1 ≤ sig)
    (h : MaskedStep t sig k op k') (hall : Holds (KeptMasked t sig b) k) :
    Holds (KeptMasked t sig b) k' := by
  obtain ⟨-, fuel, hrun⟩ := h.step
  by_cases hself : ∃ how set, op = .sys (.sigprocmask how set) ∧ k.current = t
  · obtain ⟨how, set, rfl, hcurrent⟩ := hself
    rintro u rfl
    refine ⟨h.mask how set rfl hcurrent, fun hb => ?_⟩
    rw [SignalOp.run, bind_ok_iff] at hrun
    obtain ⟨⟨reports, k₁⟩, hrun, hk⟩ := hrun
    obtain rfl := Except.ok.inj hk
    have hkeep : KeepsSignal sig k k₁ := .of_attrsOnly (Op.plain_attrs rfl hrun)
    exact (hkeep u).trans ((hall u rfl).2 hb)
  · refine (keptMasked_invariant t hsig b).step hall (h.allowed ?_) hrun trivial
    exact fun how set heq hcurrent => hself ⟨how, set, heq, hcurrent⟩

/-- A masked signal has no effect as long as it is not removed from the mask, and does not stop
the task. -/
theorem masked_run {t : Nat} {ops : List SignalOp} (hsig : 1 ≤ sig ∧ sig ≤ 31)
    (hmasked : masked sig (k.tasks t) = true) (hrun : Run (MaskedStep t sig) k ops k') :
    HeldBack t sig k k' := by
  have hstart : Holds (KeptMasked t sig (hasSignal sig (k.tasks t))) k := by
    rintro u rfl
    exact ⟨hmasked, fun hb => hb⟩
  have hend := hrun.invariant (Holds (KeptMasked t sig (hasSignal sig (k.tasks t))))
    (fun _ _ _ hstep hall => hstep.kept hsig.1 hall) hstart
  obtain ⟨hafter, hpending⟩ := hend t rfl
  refine ⟨hafter, hpending, masked_interrupts hsig hafter, fun d hd hcurrent => ?_⟩
  refine masked_acts hsig ?_
  have hmask : (d.tasks t).signalMask = (k'.tasks t).signalMask := (hd.alike t).mask
  rwa [masked, Kernel.currentTask, hcurrent, hmask]

/-- A signal other than `SIGCONT`, sent to any task, becomes pending and does nothing else if
and only if it does not stop the task, whether it is masked or not; the same for `raise`, and
for `kill` and all it is sent to.  In every run in which a masked signal does not stop its task
it has no effect until the task removes it from the mask. -/
theorem masked_signal_pends_iff (hsig : 1 ≤ sig ∧ sig ≤ 31) (hcont : sig ≠ sigCont) (k : Kernel) :
    (∀ t, signalTask k t sig = pend k t sig ↔ stops (k.tasks t) sig = false) ∧
    (raise k sig = (0, pend k k.current sig) ↔ stops k.currentTask sig = false) ∧
    (∀ {fuel pid ret k'}, kill fuel k pid sig = .ok (ret, k') →
      ∃ ring, ringFrom k fuel initTask = .ok ring ∧
        (k' = pendAll k (killTargets k pid ring) sig ↔
          ∀ t ∈ killTargets k pid ring, stops (k.tasks t) sig = false)) ∧
    ∀ {t ops k'}, masked sig (k.tasks t) = true → Run (MaskedStep t sig) k ops k' →
      HeldBack t sig k k' := by
  have hrange : ¬(sig < 1 ∨ 31 < sig) := by omega
  refine ⟨signalTask_pends_iff hcont, ?_, ?_, masked_run hsig⟩
  · rw [raise, if_neg hrange, Prod.mk.injEq, signalTask_pends_iff hcont]
    exact ⟨fun h => h.2, fun h => ⟨rfl, h⟩⟩
  · intro fuel pid ret k' hkill
    rw [kill, if_neg hrange, bind_ok_iff] at hkill
    obtain ⟨ring, hring, hkill⟩ := hkill
    obtain ⟨-, rfl⟩ := Prod.mk.inj (Except.ok.inj hkill)
    exact ⟨ring, hring, killLoop_pends_iff hcont pid ring⟩

theorem Step.maskedStep {t : Nat} {op : Op} (h : Step k op k')
    (hkeep : (decide (t ∈ k.allocated) && !stops (k.tasks t) sig) = true)
    (hmask : ∀ how set, op ≠ .sigprocmask how set) : MaskedStep t sig k (.sys op) k' := by
  rw [Bool.and_eq_true, decide_eq_true_iff, Bool.not_eq_true'] at hkeep
  refine ⟨h.sys, hkeep.1, fun how set heq => ?_, fun _ _ _ _ => hkeep.2, fun _ _ => hkeep.2⟩
  exact absurd (SignalOp.sys.inj heq) (hmask how set)

/-- The child of the first program masks `SIGTERM`, or `SIGTSTP`. -/
def childMasks (sig : Nat) : List Op := childRuns ++ [.sigprocmask 0 (sigBit sig)]

/-- It sends itself `SIGTERM`, on its way back from the call signals are delivered, and it asks
for its own process group. -/
def masksTerm : List Op := [.kill 2 15, .deliverSignals closes, .setpgid 0 0]

set_option maxRecDepth 4000 in
theorem masked_signal_pends_iff_term : ∃ k k',
    Run KernelStep (bootKernel smallBoot) ((childMasks 15).map .sys) k ∧
      signalTask k 2 15 = pend k 2 15 ∧ hasSignal 15 (k'.tasks 2) = true ∧
      HeldBack 2 15 k k' := by
  have hruns : ∃ k ∈ runOps 8 (fun _ => true) (childMasks 15) (bootKernel smallBoot),
      masked 15 (k.tasks 2) = true ∧ stops (k.tasks 2) 15 = false ∧
        ∃ k' ∈ runOps 8 (fun k => decide (2 ∈ k.allocated) && !stops (k.tasks 2) 15) masksTerm k,
          hasSignal 15 (k'.tasks 2) = true := by
    decide +kernel
  obtain ⟨k, hk, hmasked, hstops, k', hk', hpending⟩ := hruns
  have hrun : Run (MaskedStep 2 15) k (masksTerm.map .sys) k' := by
    refine Run.map ((runOps_run hk').mono_of_mem fun k op k' hop hstep => ?_)
    refine hstep.2.maskedStep hstep.1 ?_
    rintro how set rfl
    simp [masksTerm] at hop
  have hiff := masked_signal_pends_iff (show 1 ≤ 15 ∧ 15 ≤ 31 by decide) (by decide) k
  exact ⟨k, k', ((runOps_run hk).mono fun _ _ _ hstep => hstep.2).sys,
    (hiff.1 2).mpr hstops, hpending, hiff.2.2.2 hmasked hrun⟩

set_option maxRecDepth 4000 in
/-- A task that has masked `SIGTSTP` sends it to itself: it is stopped, and its parent is told. -/
theorem masked_signal_stops : ∃ k,
    Run KernelStep (bootKernel smallBoot) ((childMasks 20).map .sys) k ∧
      k.current = 2 ∧ masked 20 (k.tasks 2) = true ∧ (k.tasks 2).state = .running ∧
      hasSignal sigChld (k.tasks initTask) = false ∧
      ((raise k 20).2.tasks 2).state = .stopped ∧ hasSignal 20 ((raise k 20).2.tasks 2) = false ∧
      hasSignal sigChld ((raise k 20).2.tasks initTask) = true := by
  have hruns : ∃ k ∈ runOps 8 (fun _ => true) (childMasks 20) (bootKernel smallBoot),
      k.current = 2 ∧ masked 20 (k.tasks 2) = true ∧ (k.tasks 2).state = .running ∧
        hasSignal sigChld (k.tasks initTask) = false ∧
        ((raise k 20).2.tasks 2).state = .stopped ∧
        hasSignal 20 ((raise k 20).2.tasks 2) = false ∧
        hasSignal sigChld ((raise k 20).2.tasks initTask) = true := by
    decide +kernel
  obtain ⟨k, hk, hstate⟩ := hruns
  exact ⟨k, ((runOps_run hk).mono fun _ _ _ hstep => hstep.2).sys, hstate⟩

end GlitchedOS
