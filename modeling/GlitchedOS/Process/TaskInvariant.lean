/-
Properties of single tasks that hold in every run and do not look at the pending signals.
Beside ending a task, or setting a handler or the mask, the system writes to tasks in one way
only, as far as they are concerned: the signal settings stay as they are, and no zombie is
made or ends differently.
-/
import GlitchedOS.Process.StepInvariant

namespace GlitchedOS

variable {k k' : Kernel}

/-- `y` has the signal settings of `x`, and is a zombie only where `x` is the same one. -/
structure Task.Alike (x y : Task) : Prop where
  handlers : y.signalHandlers = x.signalHandlers
  mask : y.signalMask = x.signalMask
  zombie : y.state = .zombie → x.state = .zombie ∧ y.returnCode = x.returnCode

namespace Task.Alike

variable {x y : Task}

theorem of_standing (h : y.standing = x.standing) : x.Alike y := by
  obtain ⟨hhandlers, hrest⟩ := Prod.mk.inj h
  obtain ⟨hmask, hrest⟩ := Prod.mk.inj hrest
  obtain ⟨hstate, hcode⟩ := Prod.mk.inj hrest
  exact ⟨hhandlers, hmask, fun hy => ⟨hstate.symm.trans hy, hcode⟩⟩

theorem refl (x : Task) : x.Alike x := of_standing rfl

end Task.Alike

theorem Task.Calm.alike {x y : Task} (h : x.Calm y) : x.Alike y := ⟨h.handlers, h.mask, h.zombie⟩

/-- Every task is as it was, in the sense of `Task.Alike`. -/
def Alike (k k' : Kernel) : Prop := ∀ t, (k.tasks t).Alike (k'.tasks t)

namespace Alike

theorem refl (k : Kernel) : Alike k k := fun t => .refl (k.tasks t)

theorem of_calm (h : Calm k k') : Alike k k' := fun t => (h t).alike

end Alike

variable {ends : Nat → Prop} {P : Nat → Task → Prop}

/-- A property of each task that all writes keep.  A task `t` is ended only where
`ends t` holds. -/
structure TaskInvariant (ends : Nat → Prop) (P : Nat → Task → Prop) : Prop where
  alike : ∀ {t x y}, P t x → x.Alike y → P t y
  copy : ∀ {t u x y}, P t x → x.Alike y → y.state ≠ .zombie → P u y
  sigaction : ∀ {t x} sig handler, ¬(sig = sigStop ∨ sig = sigKill) → P t x →
    P t { x with signalHandlers := Function.update x.signalHandlers sig handler }
  sigprocmask : ∀ {t x} mask, P t x →
    P t { x with signalMask := mask &&& ~~~(sigBit sigStop ||| sigBit sigKill) }
  exit : ∀ {t x} ret, ends t → P t x → P t { x with state := .zombie, returnCode := ret }

namespace TaskInvariant

theorem stepInvariant (h : TaskInvariant ends P) :
    StepInvariant ends (fun _ => True) (fun _ _ _ => True) (fun _ _ _ _ => True) P where
  calm := fun hx hy => h.alike hx hy.alike
  copy := fun _ hx hy hstate => h.copy hx hy.alike hstate
  told := fun hx => h.alike hx (.of_standing rfl)
  sent := by
    intro t x sig _ hx
    refine h.alike hx ?_
    rw [Task.sent]
    split
    · exact ⟨rfl, rfl, fun hzombie => by cases hzombie⟩
    · exact .of_standing rfl
  sendsTold := fun _ => trivial
  sigaction := fun _ hsig hx => h.sigaction _ _ hsig hx
  sigprocmask := fun mask _ hx => h.sigprocmask mask hx
  exit := h.exit

/-- One step of the system with `sigreturn`. -/
theorem step (h : TaskInvariant ends P) (hall : Holds P k) {op : SignalOp} {fuel : Nat}
    (hrun : op.run fuel k = .ok k') (hends : ends k'.current) : Holds P k' :=
  h.stepInvariant.step hall (.of_true op k) hrun hends

end TaskInvariant

/-- One step of the system with `sigreturn`. -/
def KernelStep (k : Kernel) (op : SignalOp) (k' : Kernel) : Prop :=
  op.enabled k ∧ ∃ fuel, op.run fuel k = .ok k'

/-- A run in which every task that comes to run may end keeps the property. -/
theorem TaskInvariant.run (h : TaskInvariant ends P) (hall : Holds P k)
    {ops : List SignalOp}
    (hrun : Run (fun k op k' => KernelStep k op k' ∧ ends k'.current) k ops k') :
    Holds P k' :=
  hrun.invariant (Holds P)
    (fun _ _ _ ⟨⟨_, _, hop⟩, hends⟩ hall => h.step hall hop hends) hall

theorem Step.sys {op : Op} (h : Step k op k') : KernelStep k (.sys op) k' := by
  obtain ⟨henabled, fuel, reports, hop⟩ := h
  refine ⟨henabled, fuel, ?_⟩
  rw [SignalOp.run, hop]
  rfl

theorem Run.sys {ops : List Op} (hrun : Run Step k ops k') :
    Run KernelStep k (ops.map .sys) k' :=
  (hrun.mono fun _ _ _ => Step.sys).map

end GlitchedOS
