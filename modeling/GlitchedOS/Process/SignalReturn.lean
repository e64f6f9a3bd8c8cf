/-
Handlers and `sigreturn`: what a program interrupted by signals finds when its
handlers have returned.  `deliver_signals` saves the interrupted context in one
slot of the task each time it enters a handler, and `sigreturn` restores that
slot.
-/
import GlitchedOS.Process.Signals

namespace GlitchedOS

variable {F : Type}

/-- The registers of an interrupt frame that are only saved and restored. -/
structure Registers where
  r15 : BitVec 64
  r14 : BitVec 64
  r13 : BitVec 64
  r12 : BitVec 64
  r11 : BitVec 64
  r10 : BitVec 64
  r9 : BitVec 64
  r8 : BitVec 64
  rsi : BitVec 64
  rbp : BitVec 64
  rdx : BitVec 64
  rcx : BitVec 64
  rbx : BitVec 64
  vector : BitVec 64
  errorCode : BitVec 64
  rflags : BitVec 64
  ss : BitVec 64
deriving Repr, DecidableEq

/-- What a program is resumed with: its interrupt frame, in two parts, and its
FPU state. -/
structure Frame (F : Type) where
  iframe : Iframe
  registers : Registers
  fpu : F
deriving DecidableEq

/-- A frame of user mode, where interrupts are always enabled. -/
structure Frame.User (frame : Frame F) : Prop where
  cs : frame.iframe.cs = userCs
  rflags : frame.registers.rflags ||| 0x200#64 = frame.registers.rflags

/-- The current task with the rest of its frame and its FPU state, and with the
rest of what it saves when a handler is entered. -/
structure Context (F : Type) where
  task : Task
  registers : Registers
  fpu : F
  interruptedRegisters : Registers
  interruptedFpu : F

def Context.frame (c : Context F) : Frame F := ⟨c.task.iframe, c.registers, c.fpu⟩

def Context.interruptedFrame (c : Context F) : Frame F :=
  ⟨c.task.signalInterruptedIframe, c.interruptedRegisters, c.interruptedFpu⟩

def Context.setFrame (c : Context F) (frame : Frame F) : Context F :=
  { c with task := { c.task with iframe := frame.iframe }
           registers := frame.registers
           fpu := frame.fpu }

/-- The signals of a task that may be delivered to it. -/
def deliverable (t : Task) : BitVec 32 := t.pendingSignals &&& ~~~t.signalMask

/-- The handler of the program for signal `i + 1`, if it is to be run. -/
def handles (set : BitVec 32) (i : Nat) (t : Task) : Bool :=
  set.getLsbD i && match t.signalHandlers (i + 1) with
    | .user _ => true
    | _ => false

/-- One round of `deliver_signals`, with the signal whose handler it enters. -/
def Context.deliverSignal (set : BitVec 32) (i : Nat) (c : Context F) :
    List Nat × Context F × Option Int :=
  let (task, ret) := GlitchedOS.deliverSignal set i c.task
  if handles set i c.task && decide (c.task.iframe.cs = userCs) then
    ([i + 1], { c with task := task, interruptedRegisters := c.registers,
                       interruptedFpu := c.fpu }, ret)
  else ([], { c with task := task }, ret)

/-- The rounds of `deliver_signals`, up to a call of `exit`, with the signals
whose handlers they enter. -/
def Context.deliverLoop (set : BitVec 32) :
    Nat → Nat → Context F → List Nat × Context F × Option Int
  | 0, _, c => ([], c, none)
  | n + 1, i, c =>
    match c.deliverSignal set i with
    | (entered, c, some ret) => (entered, c, some ret)
    | (entered, c, none) =>
      let (later, c, ret) := Context.deliverLoop set n (i + 1) c
      (entered ++ later, c, ret)

/-- `deliver_signals` -/
def Context.deliverSignals (c : Context F) : List Nat × Context F × Option Int :=
  if deliverable c.task = 0#32 then ([], c, none)
  else if c.task.inSignal then ([], c, none)
  else c.deliverLoop (deliverable c.task) 31 0

/-- `rflags |= 0x200` -/
def Context.enableInterrupts (c : Context F) : Context F :=
  { c with registers :=
      { c.registers with rflags := c.registers.rflags ||| 0x200#64 } }

/-- `sigreturn` puts the saved context back. -/
def Context.leaveHandler (c : Context F) : Context F :=
  { c with task := { c.task with
             inSignal := false, iframe := c.task.signalInterruptedIframe }
           registers := c.interruptedRegisters
           fpu := c.interruptedFpu }

/-- `sigreturn`, as the system call: outside a handler it fails, and signals are
delivered on the way out of the call. -/
def Context.sigreturn (c : Context F) : List Nat × Context F × Option Int :=
  if !c.task.inSignal then
    let iframe := { c.task.iframe with rax := eInval }
    Context.deliverSignals { c with task := { c.task with iframe := iframe } }
  else
    let (entered, c, ret) := c.leaveHandler.deliverSignals
    (entered, c.enableInterrupts, ret)

/-! ### Interrupted programs -/

/-- What happens to an interrupted program: signals are delivered, a handler runs
and leaves the registers changed, or a handler returns. -/
inductive SignalEvent (F : Type) where
  | deliver
  | user (frame : Frame F)
  | sigreturn

/-- An interrupted program: the signals whose handlers were entered, in order,
and how many of them have returned. -/
structure Episode (F : Type) where
  context : Context F
  entered : List Nat
  returned : Nat

/-- A call that may enter handlers, unless it ends the process. -/
def Episode.enter (e : Episode F) : List Nat × Context F × Option Int →
    Option (Episode F)
  | (_, _, some _) => none
  | (entered, c, none) => some { e with context := c, entered := e.entered ++ entered }

/-- A handler that was entered and has not returned is running. -/
def Episode.InHandler (e : Episode F) : Prop := e.returned < e.entered.length

inductive Episode.Step : Episode F → SignalEvent F → Episode F → Prop
  | deliver {e e' : Episode F} (h : e.enter e.context.deliverSignals = some e') :
      Step e .deliver e'
  | user {e : Episode F} {frame : Frame F} (h : e.InHandler)
      (huser : frame.User) :
      Step e (.user frame) { e with context := e.context.setFrame frame }
  | sigreturn {e e' : Episode F} (h : e.InHandler)
      (hsig : e.enter e.context.sigreturn = some e') :
      Step e .sigreturn { e' with returned := e.returned + 1 }

/-- A user task about to be delivered signals, none of which ends it. -/
structure Interrupted (F : Type) where
  context : Context F
  user : context.frame.User
  outside : context.task.inSignal = false
  spared : ∀ i < 31, (deliverable context.task).getLsbD i = true →
    context.task.signalHandlers (i + 1) = .dfl →
      signalDefaultActions (i + 1) ≠ .terminate

/-- The signals of a task that are pending, not masked and handled by the
program. -/
def handledSignals (t : Task) : List Nat :=
  ((List.range' 0 31).filter fun i => handles (deliverable t) i t).map (· + 1)

theorem Context.deliverSignal_task (set : BitVec 32) (i : Nat) (c : Context F) :
    (c.deliverSignal set i).2.1.task = (GlitchedOS.deliverSignal set i c.task).1 ∧
      (c.deliverSignal set i).2.2 =
        (GlitchedOS.deliverSignal set i c.task).2 := by
  rw [Context.deliverSignal]
  dsimp only
  split <;> exact ⟨rfl, rfl⟩

/-- The context loop does to the task what the loop of the scheduler does. -/
theorem Context.deliverLoop_task (set : BitVec 32) (n i : Nat) (c : Context F) :
    ((c.deliverLoop set n i).2.1.task, (c.deliverLoop set n i).2.2) =
      GlitchedOS.deliverLoop set n i c.task := by
  induction n generalizing i c with
  | zero => rfl
  | succ n ih =>
      have htask := c.deliverSignal_task set i
      rw [Context.deliverLoop, GlitchedOS.deliverLoop]
      rcases hround : c.deliverSignal set i with ⟨entered, c₁, ret⟩
      rw [hround] at htask
      rcases hcode : GlitchedOS.deliverSignal set i c.task with ⟨t, ret'⟩
      rw [hcode] at htask
      obtain ⟨rfl, rfl⟩ := htask
      cases ret with
      | some ret => rfl
      | none => exact ih (i + 1) c₁

/-- What a delivery comes to in the kernel: the context's task is the current
task, which may have to exit. -/
def finishDelivery (env : CloseEnv) (fuel : Nat) (k : Kernel) :
    List Nat × Context F × Option Int → Except Stop Kernel
  | (_, c, none) => .ok (k.modifyCurrent fun _ => c.task)
  | (_, c, some ret) => exit env fuel (k.modifyCurrent fun _ => c.task) ret

/-- The scheduler delivers signals to the current task as to its context. -/
theorem Context.deliverSignals_kernel (env : CloseEnv) (fuel : Nat) {k : Kernel}
    {c : Context F} (htask : k.currentTask = c.task) :
    GlitchedOS.deliverSignals env fuel k =
      finishDelivery env fuel k c.deliverSignals := by
  have hsame : k.modifyCurrent (fun _ => c.task) = k := by
    rw [← htask, Kernel.modifyCurrent, Kernel.modifyTask, Kernel.currentTask,
      Function.update_eq_self]
  have hloop := c.deliverLoop_task (deliverable c.task) 31 0
  rw [GlitchedOS.deliverSignals, Context.deliverSignals, htask]
  dsimp only
  rw [← deliverable]
  split
  · rw [finishDelivery, hsame]
  split
  · rw [finishDelivery, hsame]
  rw [← hloop]
  rcases c.deliverLoop (deliverable c.task) 31 0 with ⟨entered, c', ret⟩
  cases ret with
  | none => rfl
  | some ret => rfl

/-- What a delivery does to the context, given the signals it enters handlers
for: the one slot holds the interrupted frame only if there is one of them. -/
structure Delivered (c : Context F) (entered : List Nat) (c' : Context F) :
    Prop where
  handlers : c'.task.signalHandlers = c.task.signalHandlers
  mask : c'.task.signalMask = c.task.signalMask
  cs : c'.task.iframe.cs = c.task.iframe.cs
  none : entered = [] → c'.frame = c.frame ∧
    c'.interruptedFrame = c.interruptedFrame ∧ c'.task.inSignal = c.task.inSignal
  one : entered.length = 1 → c'.interruptedFrame = c.frame
  some : entered ≠ [] → c'.task.inSignal = true

theorem Delivered.pending (c : Context F) (pending : BitVec 32) :
    Delivered c []
      { c with task := { c.task with pendingSignals := pending } } where
  handlers := rfl
  mask := rfl
  cs := rfl
  none _ := ⟨rfl, rfl, rfl⟩
  one h := by cases h
  some h := absurd rfl h

theorem Delivered.refl (c : Context F) : Delivered c [] c :=
  Delivered.pending c c.task.pendingSignals

theorem Delivered.append {c c₁ c₂ : Context F} {entered later : List Nat}
    (h : Delivered c entered c₁) (h' : Delivered c₁ later c₂) :
    Delivered c (entered ++ later) c₂ where
  handlers := h'.handlers.trans h.handlers
  mask := h'.mask.trans h.mask
  cs := h'.cs.trans h.cs
  none hnil := by
    obtain ⟨hentered, hlater⟩ := List.append_eq_nil_iff.1 hnil
    obtain ⟨hframe, hslot, hin⟩ := h.none hentered
    obtain ⟨hframe', hslot', hin'⟩ := h'.none hlater
    exact ⟨hframe'.trans hframe, hslot'.trans hslot, hin'.trans hin⟩
  one hlen := by
    rw [List.length_append] at hlen
    rcases Nat.eq_zero_or_pos entered.length with hzero | hpos
    · have hframe := (h.none (List.length_eq_zero_iff.1 hzero)).1
      exact (h'.one (by omega)).trans hframe
    · have hlater := List.length_eq_zero_iff.1 (show later.length = 0 by omega)
      exact (h'.none hlater).2.1.trans (h.one (by omega))
  some hne := by
    cases later with
    | nil =>
        rw [List.append_nil] at hne
        exact (h'.none rfl).2.2.trans (h.some hne)
    | cons sig rest => exact h'.some (List.cons_ne_nil sig rest)

/-- The signals from `i` on that a delivery of `set` enters handlers for. -/
def handledFrom (set : BitVec 32) (t : Task) (n i : Nat) : List Nat :=
  ((List.range' i n).filter fun i => handles set i t).map (· + 1)

theorem getLsbD_clear {set : BitVec 32} {i : Nat} (j : Nat) :
    (set &&& ~~~sigBit (i + 1)).getLsbD j =
      (set.getLsbD j && !decide (i = j)) := by
  by_cases hj : j < 32
  · have hbit : (sigBit (i + 1)).getLsbD j = decide (i = j) := by
      rw [sigBit, BitVec.getLsbD_shiftLeft, BitVec.getLsbD_one]
      simp only [Nat.add_sub_cancel]
      by_cases hij : i = j
      · subst hij
        simp [hj]
      · by_cases hlt : j < i
        · simp [hij, hlt]
        · simp [hij, show j - i ≠ 0 by omega]
    rw [BitVec.getLsbD_and, BitVec.getLsbD_not, hbit]
    simp [hj]
  · rw [BitVec.getLsbD_of_ge _ _ (by omega), BitVec.getLsbD_of_ge _ _ (by omega)]
    rfl

/-- One round, in user mode and for a signal that does not end the process. -/
theorem Context.deliverSignal_user {set : BitVec 32} {i : Nat} {c : Context F}
    (huser : c.task.iframe.cs = userCs)
    (hspared : set.getLsbD i = true → c.task.signalHandlers (i + 1) = .dfl →
      signalDefaultActions (i + 1) ≠ .terminate) :
    ∃ c', c.deliverSignal set i = (handledFrom set c.task 1 i, c', none) ∧
      Delivered c (handledFrom set c.task 1 i) c' ∧
      ∀ j, c'.task.pendingSignals.getLsbD j =
        (c.task.pendingSignals.getLsbD j &&
          !(set.getLsbD i && decide (i = j))) := by
  have hone : handledFrom set c.task 1 i =
      if handles set i c.task then [i + 1] else [] := by
    rw [handledFrom, List.range'_one, List.filter_singleton]
    cases handles set i c.task <;> rfl
  rw [hone, Context.deliverSignal, GlitchedOS.deliverSignal]
  by_cases hset : set.getLsbD i = true
  swap
  · rw [Bool.not_eq_true] at hset
    refine ⟨c, ?_, ?_, ?_⟩
    · simp [handles, hset]
    · simpa [handles, hset] using Delivered.refl c
    · simp [hset]
  cases hhandler : c.task.signalHandlers (i + 1) with
  | ign =>
      refine ⟨_, by simp [handles, hset, hhandler]; rfl, ?_, ?_⟩
      · simp only [handles, hhandler, Bool.and_false, Bool.false_eq_true, if_false]
        exact Delivered.pending c _
      · intro j
        simpa [hset] using getLsbD_clear j
  | dfl =>
      refine ⟨_, by simp [handles, hset, hhandler, hspared hset hhandler]; rfl,
        ?_, ?_⟩
      · simp only [handles, hhandler, Bool.and_false, Bool.false_eq_true, if_false]
        exact Delivered.pending c _
      · intro j
        simpa [hset] using getLsbD_clear j
  | user addr =>
      refine ⟨_, by simp [handles, hset, hhandler, huser]; rfl, ?_, ?_⟩
      · simp only [handles, hset, hhandler, Bool.and_self, if_true]
        exact ⟨rfl, rfl, rfl, fun h => (List.cons_ne_nil _ _ h).elim, fun _ => rfl,
          fun _ => rfl⟩
      · intro j
        simpa [hset, enterHandler] using getLsbD_clear j

/-- The rounds from `i` on, in user mode and for signals that do not end the
process. -/
theorem Context.deliverLoop_user {set : BitVec 32} {n i : Nat} {c : Context F}
    (huser : c.task.iframe.cs = userCs)
    (hspared : ∀ j, i ≤ j → j < i + n → set.getLsbD j = true →
      c.task.signalHandlers (j + 1) = .dfl →
        signalDefaultActions (j + 1) ≠ .terminate) :
    ∃ c', c.deliverLoop set n i = (handledFrom set c.task n i, c', none) ∧
      Delivered c (handledFrom set c.task n i) c' ∧
      ∀ j, c'.task.pendingSignals.getLsbD j =
        (c.task.pendingSignals.getLsbD j &&
          !(set.getLsbD j && decide (i ≤ j ∧ j < i + n))) := by
  induction n generalizing i c with
  | zero =>
      refine ⟨c, rfl, Delivered.refl c, fun j => ?_⟩
      have hout : ¬(i ≤ j ∧ j < i + 0) := by omega
      rw [decide_eq_false hout, Bool.and_false, Bool.not_false, Bool.and_true]
  | succ n ih =>
      obtain ⟨c₁, hround, hdel, hpend⟩ := Context.deliverSignal_user huser
        (hspared i (Nat.le_refl i) (by omega))
      have hspared₁ : ∀ j, i + 1 ≤ j → j < i + 1 + n → set.getLsbD j = true →
          c₁.task.signalHandlers (j + 1) = .dfl →
            signalDefaultActions (j + 1) ≠ .terminate := by
        intro j hle hlt hset hdfl
        rw [hdel.handlers] at hdfl
        exact hspared j (by omega) (by omega) hset hdfl
      obtain ⟨c₂, hloop, hdel', hpend'⟩ := ih (hdel.cs.trans huser) hspared₁
      have hsame : handledFrom set c₁.task n (i + 1) =
          handledFrom set c.task n (i + 1) := by
        simp only [handledFrom, handles, hdel.handlers]
      have hsplit : handledFrom set c.task (n + 1) i =
          handledFrom set c.task 1 i ++ handledFrom set c.task n (i + 1) := by
        rw [handledFrom, handledFrom, handledFrom, ← List.map_append,
          ← List.filter_append, List.range'_succ, List.range'_one]
        rfl
      rw [hsame] at hloop hdel'
      refine ⟨c₂, ?_, ?_, fun j => ?_⟩
      · rw [Context.deliverLoop, hround]
        dsimp only
        rw [hloop, hsplit]
      · rw [hsplit]
        exact hdel.append hdel'
      · rw [hpend', hpend, Bool.and_assoc]
        congr 1
        by_cases hij : i = j
        · subst hij
          simp
        · have hiff : (i + 1 ≤ j ∧ j < i + 1 + n) ↔ (i ≤ j ∧ j < i + (n + 1)) := by
            omega
          simp only [hij, hiff, decide_false, Bool.and_false, Bool.not_false,
            Bool.true_and]

/-- No signal of the task can be delivered. -/
def Drained (t : Task) : Prop := ∀ i < 31, (deliverable t).getLsbD i = false

theorem getLsbD_deliverable (t : Task) {i : Nat} (hi : i < 32) :
    (deliverable t).getLsbD i =
      (t.pendingSignals.getLsbD i && !t.signalMask.getLsbD i) := by
  rw [deliverable, BitVec.getLsbD_and, BitVec.getLsbD_not]
  simp [hi]

theorem Drained.congr {t t' : Task} (h : Drained t)
    (hpending : t'.pendingSignals = t.pendingSignals)
    (hmask : t'.signalMask = t.signalMask) : Drained t' := by
  intro i hi
  rw [deliverable, hpending, hmask]
  exact h i hi

theorem Context.deliverLoop_drained {set : BitVec 32} {n i : Nat}
    (c : Context F) (hset : ∀ j < i + n, set.getLsbD j = false) :
    c.deliverLoop set n i = ([], c, none) := by
  induction n generalizing i with
  | zero => rfl
  | succ n ih =>
      have hround : c.deliverSignal set i = ([], c, none) := by
        simp [Context.deliverSignal, GlitchedOS.deliverSignal, handles,
          hset i (by omega)]
      rw [Context.deliverLoop, hround]
      dsimp only
      rw [ih fun j hj => hset j (by omega)]
      rfl

theorem Drained.deliverSignals {c : Context F} (h : Drained c.task) :
    c.deliverSignals = ([], c, none) := by
  rw [Context.deliverSignals]
  split
  · rfl
  · split
    · rfl
    · exact c.deliverLoop_drained fun j hj => h j (by omega)

/-- The first delivery to an interrupted program enters each handler once, and
leaves nothing to deliver. -/
theorem Interrupted.deliverSignals (p : Interrupted F) :
    ∃ c, p.context.deliverSignals =
        (handledSignals p.context.task, c, none) ∧
      Delivered p.context (handledSignals p.context.task) c ∧
      Drained c.task := by
  rw [Context.deliverSignals]
  split
  · rename_i hzero
    have hnone : ∀ i, (deliverable p.context.task).getLsbD i = false := by
      simp [hzero]
    have hnil : handledSignals p.context.task = [] := by
      simp [handledSignals, handles, hnone]
    rw [hnil]
    exact ⟨p.context, rfl, Delivered.refl _, fun i _ => hnone i⟩
  · rw [p.outside]
    have hspared : ∀ j, 0 ≤ j → j < 0 + 31 →
        (deliverable p.context.task).getLsbD j = true →
        p.context.task.signalHandlers (j + 1) = .dfl →
          signalDefaultActions (j + 1) ≠ .terminate :=
      fun j _ hj => p.spared j (by omega)
    obtain ⟨c, hloop, hdel, hpend⟩ := Context.deliverLoop_user p.user.cs hspared
    refine ⟨c, hloop, hdel, fun i hi => ?_⟩
    rw [getLsbD_deliverable _ (by omega), hpend, hdel.mask,
      getLsbD_deliverable _ (by omega)]
    cases p.context.task.pendingSignals.getLsbD i <;>
      cases p.context.task.signalMask.getLsbD i <;> simp [hi]

/-! ### Returning -/

theorem Episode.enter_some {e e' : Episode F} {entered : List Nat}
    {c : Context F} {ret : Option Int} (h : e.enter (entered, c, ret) = some e') :
    ret = none ∧
      e' = { e with context := c, entered := e.entered ++ entered } := by
  cases ret with
  | some ret => cases h
  | none => exact ⟨rfl, (Option.some.inj h).symm⟩

theorem Context.sigreturn_inside {c : Context F} (hdrained : Drained c.task)
    (hin : c.task.inSignal = true) :
    ∃ c', c.sigreturn = ([], c', none) ∧ Drained c'.task ∧
      c'.task.inSignal = false ∧
      (c.interruptedFrame.User → c'.frame = c.interruptedFrame) := by
  have hdrained' : Drained c.leaveHandler.task := hdrained.congr rfl rfl
  refine ⟨c.leaveHandler.enableInterrupts, ?_, ?_, rfl, ?_⟩
  · rw [Context.sigreturn, hin]
    exact congrArg (fun r : List Nat × Context F × Option Int =>
      (r.1, r.2.1.enableInterrupts, r.2.2)) hdrained'.deliverSignals
  · exact hdrained'.congr rfl rfl
  · intro huser
    have hrflags : c.interruptedRegisters.rflags ||| 0x200#64 =
        c.interruptedRegisters.rflags := huser.rflags
    rw [Context.enableInterrupts, Context.leaveHandler, Context.frame, hrflags]
    rfl

/-- What holds of a program with at most one signal to handle, from the first
delivery on: its handler has returned and it is as it was, or the handler runs
and the slot holds what it was. -/
def Settled (p : Interrupted F) (e : Episode F) : Prop :=
  Drained e.context.task ∧ e.entered = handledSignals p.context.task ∧
    ((¬e.InHandler ∧ e.context.frame = p.context.frame) ∨
      (e.returned + 1 = e.entered.length ∧ e.context.task.inSignal = true ∧
        e.context.interruptedFrame = p.context.frame))

theorem Settled.step {p : Interrupted F} {e e' : Episode F}
    {event : SignalEvent F} (hstep : e.Step event e') (h : Settled p e) :
    Settled p e' := by
  obtain ⟨hdrained, hentered, hphase⟩ := h
  cases hstep with
  | deliver hcall =>
      rw [hdrained.deliverSignals] at hcall
      obtain ⟨-, rfl⟩ := Episode.enter_some hcall
      rw [List.append_nil]
      exact ⟨hdrained, hentered, hphase⟩
  | user hin huser =>
      refine ⟨hdrained.congr rfl rfl, hentered, Or.inr ?_⟩
      exact hphase.resolve_left fun hout => hout.1 hin
  | sigreturn hin hcall =>
      obtain ⟨hret, hflag, hslot⟩ := hphase.resolve_left fun hout => hout.1 hin
      obtain ⟨c, hsig, hdrained', -, hframe⟩ :=
        Context.sigreturn_inside hdrained hflag
      rw [hsig] at hcall
      obtain ⟨-, rfl⟩ := Episode.enter_some hcall
      refine ⟨hdrained', ?_, Or.inl ⟨?_, ?_⟩⟩
      · exact (List.append_nil _).trans hentered
      · rw [Episode.InHandler, List.append_nil, hret]
        exact Nat.lt_irrefl _
      · exact (hframe (hslot ▸ p.user)).trans hslot

/-- A frame one byte further on. -/
def Frame.moved (frame : Frame F) : Frame F :=
  { frame with iframe :=
      { frame.iframe with rip := frame.iframe.rip + 1#64 } }

def zeroRegisters : Registers :=
  ⟨0, 0, 0, 0, 0, 0, 0, 0, 0, 0, 0, 0, 0, 0, 0, 0x202#64, 0⟩

end GlitchedOS
