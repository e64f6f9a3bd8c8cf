/-
How often a signal is acted on.  The pending bits of a task are part of the task,
so each of them stands for one delivery to come: a signal that is sent sets a bit,
entering a handler or ending the process clears one, and the only other way to
make one is to copy a task that has it.
-/
import GlitchedOS.Process.SignalReturn
import GlitchedOS.Process.SchedOnly
import Mathlib.Data.Set.Card

namespace GlitchedOS

variable {k k' k'' : Kernel} {sig : Nat}
variable {fuel new i : Nat} {f : Task → Task}

/-! ### What is sent and what is acted on -/

/-- `SYSCALL_SIGRETURN` -/
def sysSigreturn (env : CloseEnv) (fuel : Nat) (k : Kernel) :
    Except Stop Kernel :=
  if !k.currentTask.inSignal then .ok (leaveSyscall (eInval, k))
  else deliverSignals env fuel (k.modifyCurrent fun x =>
    { x with inSignal := false, iframe := x.signalInterruptedIframe })

/-- The operations of the system, with `sigreturn`. -/
inductive SignalOp where
  | sys (op : Op)
  | sigreturn (env : CloseEnv)

def SignalOp.enabled (k : Kernel) : SignalOp → Prop
  | .sys op => op.enabled k
  | .sigreturn _ => k.switching = false ∧ k.currentTask.isKworker = false

def SignalOp.run (fuel : Nat) (k : Kernel) : SignalOp → Except Stop Kernel
  | .sys op => do
      let (_, k) ← op.run fuel k
      .ok k
  | .sigreturn env => sysSigreturn env fuel k

/-- What `deliver_signals` does for the current task: the signals whose handlers
it enters and, if it ends the process, the argument of `exit`. -/
def delivery (k : Kernel) : List Nat × Context Unit × Option Int :=
  Context.deliverSignals ⟨k.currentTask, zeroRegisters, (), zeroRegisters, ()⟩

/-- How often a delivery enters a handler for `sig` or ends the process by it. -/
def deliveryActs (sig : Nat) (r : List Nat × Context Unit × Option Int) : Nat :=
  r.1.count sig + if r.2.2 = some (-(sig : Int)) then 1 else 0

/-- How often `SIGCHLD` is sent to the parent of a process that ends. -/
def exitSends (sig : Nat) : Nat := if sig = sigChld then 1 else 0

/-- How often a delivery sends `sig`: only a process that it ends has a parent to
tell. -/
def deliverySends (sig : Nat) (r : List Nat × Context Unit × Option Int) : Nat :=
  if r.2.2.isSome then exitSends sig else 0

/-- How often `signal_task` sends `sig` when it is called with `s`: to the task,
and `SIGCHLD` to the parent of a task that it stops or continues. -/
def signalSends (sig : Nat) (k : Kernel) (t s : Nat) : Nat :=
  (if s = sig then 1 else 0) +
    if (stops (k.tasks t) s ∨ s = sigCont ∧ (k.tasks t).state = .stopped) ∧
      (k.tasks t).parent.isSome then exitSends sig else 0

/-- How often the loop of `kill` sends `sig`. -/
def killSends (sig : Nat) (pid : Int) (s : Nat) : List Nat → Kernel → Nat
  | [], _ => 0
  | t :: rest, k =>
    if killTarget k pid t && decide ((k.tasks t).state ≠ .deleted) then
      signalSends sig k t s + killSends sig pid s rest (signalTask k t s)
    else killSends sig pid s rest k

/-- The state in which `switch_task` delivers signals. -/
def switched (fuel : Nat) (k : Kernel) : Kernel :=
  match nextLoop k k.rr fuel k.rr with
  | .ok (next, rr) => chooseTask k (next.getD idleTask) rr
  | .error _ => k

/-- The state in which `sigreturn` delivers signals. -/
def handlerLeft (k : Kernel) : Kernel :=
  k.modifyCurrent fun x =>
    { x with inSignal := false, iframe := x.signalInterruptedIframe }

/-- How often an operation sends `sig`. -/
def SignalOp.sends (sig fuel : Nat) (k : Kernel) : SignalOp → Nat
  | .sys (.switchTask _) => deliverySends sig (delivery (switched fuel k))
  | .sys (.deliverSignals _) => deliverySends sig (delivery k)
  | .sys (.exit _ _) => exitSends sig
  | .sys (.kill pid s) =>
      if s < 1 ∨ 31 < s then 0
      else match ringFrom k fuel initTask with
        | .ok ring => killSends sig pid s ring k
        | .error _ => 0
  | .sys (.raise s) => if s < 1 ∨ 31 < s then 0 else signalSends sig k k.current s
  | .sys _ => 0
  | .sigreturn _ =>
      if !k.currentTask.inSignal then 0
      else deliverySends sig (delivery (handlerLeft k))

/-- How often an operation acts on `sig`: a handler is entered for it, or a process
ends by it. -/
def SignalOp.acts (sig fuel : Nat) (k : Kernel) : SignalOp → Nat
  | .sys (.switchTask _) => deliveryActs sig (delivery (switched fuel k))
  | .sys (.deliverSignals _) => deliveryActs sig (delivery k)
  | .sys _ => 0
  | .sigreturn _ =>
      if !k.currentTask.inSignal then 0
      else deliveryActs sig (delivery (handlerLeft k))

/-- The kernel, with how often the signal was sent and how often it was acted on. -/
structure SignalCount where
  kernel : Kernel
  sent : Nat
  acted : Nat

def SignalStep (sig : Nat) (s : SignalCount) (op : SignalOp) (s' : SignalCount) :
    Prop :=
  op.enabled s.kernel ∧ ∃ fuel, op.run fuel s.kernel = .ok s'.kernel ∧
    s'.sent = s.sent + op.sends sig fuel s.kernel ∧
    s'.acted = s.acted + op.acts sig fuel s.kernel

def hasSignal (sig : Nat) (x : Task) : Bool := x.pendingSignals.getLsbD (sig - 1)

/-- No operation copies a task that has the signal pending.  `fork`, and `spawn`
and `execve` once their arguments are accepted, copy the current task; a kernel
worker is a copy of `init_task`. -/
def SignalOp.CopiesNone (sig : Nat) (k : Kernel) : SignalOp → Prop
  | .sys (.fork _) => hasSignal sig k.currentTask = false
  | .sys (.spawn _ pathRes args _) =>
      0 ≤ pathRes → ∀ actions, validateArgs args = .ok actions →
        hasSignal sig k.currentTask = false
  | .sys (.execve _ pathRes args _) =>
      0 ≤ pathRes → ∀ actions,
        validateArgs { args with actions := none } = .ok actions →
          hasSignal sig k.currentTask = false
  | .sys (.createKworker _ _) => hasSignal sig (k.tasks initTask) = false
  | _ => True

/-- A step that copies no pending signal. -/
def UncopiedStep (sig : Nat) (s : SignalCount) (op : SignalOp)
    (s' : SignalCount) : Prop :=
  op.CopiesNone sig s.kernel ∧ SignalStep sig s op s'

/-! ### Operations that neither send nor deliver -/

def KeepsSignal (sig : Nat) (k k' : Kernel) : Prop :=
  ∀ t, hasSignal sig (k'.tasks t) = hasSignal sig (k.tasks t)

namespace KeepsSignal

theorem trans (h : KeepsSignal sig k k') (h' : KeepsSignal sig k' k'') :
    KeepsSignal sig k k'' := fun t => (h' t).trans (h t)

theorem of_proj (h : ∀ t, (k'.tasks t).pendingSignals =
    (k.tasks t).pendingSignals) : KeepsSignal sig k k' := fun t => by
  rw [hasSignal, h t, hasSignal]

theorem modifyTask (k : Kernel) (t : Nat)
    (hf : (f (k.tasks t)).pendingSignals = (k.tasks t).pendingSignals) :
    KeepsSignal sig k (k.modifyTask t f) :=
  of_proj fun u => Kernel.modifyTask_proj Task.pendingSignals k t u hf

theorem of_attrsOnly (h : AttrsOnly k k') : KeepsSignal sig k k' :=
  of_proj (h.proj Task.pendingSignals fun _ _ => rfl)

theorem of_linksOnly (h : LinksOnly k k') : KeepsSignal sig k k' :=
  of_proj (h.proj Task.pendingSignals fun _ _ => rfl)

theorem enterSyscall (k : Kernel) (number : Int) :
    KeepsSignal sig k (GlitchedOS.enterSyscall k number) :=
  of_attrsOnly (.enterSyscall k number)

theorem of_waitOnly (h : WaitOnly k k') : KeepsSignal sig k k' :=
  of_proj (h.proj Task.pendingSignals fun _ _ _ _ _ _ _ => rfl)

theorem runNext (h : GlitchedOS.runNext fuel k = .ok k') :
    KeepsSignal sig k k' := by
  rw [GlitchedOS.runNext, bind_ok_iff] at h
  obtain ⟨k₁, hgc, h⟩ := h
  obtain rfl := Except.ok.inj h
  rw [gcTasks] at hgc
  have hready : KeepsSignal sig k (k.modifyCurrent fun x =>
      if x.state = .running then { x with state := .ready } else x) := by
    refine modifyTask k k.current ?_
    split <;> rfl
  exact hready.trans
    (of_proj ((gcLoop_collected hgc).links Task.pendingSignals fun _ _ => rfl))

end KeepsSignal

/-! ### The tasks that have the signal pending -/

def carriers (sig : Nat) (k : Kernel) : Set Nat :=
  {t | hasSignal sig (k.tasks t) = true}

noncomputable def weight (sig : Nat) (k : Kernel) : ℕ∞ := (carriers sig k).encard

theorem KeepsSignal.weight (h : KeepsSignal sig k k') :
    weight sig k' = GlitchedOS.weight sig k := by
  have hsame : carriers sig k' = carriers sig k := by
    ext t
    rw [carriers, carriers, Set.mem_ofPred_eq, Set.mem_ofPred_eq, h t]
  rw [GlitchedOS.weight, GlitchedOS.weight, hsame]

theorem weight_split (sig : Nat) (k : Kernel) (t : Nat) :
    weight sig k = (carriers sig k \ {t}).encard +
      ((hasSignal sig (k.tasks t)).toNat : ℕ∞) := by
  rw [weight]
  cases hbit : hasSignal sig (k.tasks t) with
  | false =>
      have hout : t ∉ carriers sig k := by
        rw [carriers, Set.mem_ofPred_eq, hbit]
        exact Bool.false_ne_true
      rw [Set.sdiff_singleton_eq_self hout]
      simp
  | true =>
      have hin : t ∈ carriers sig k := hbit
      rw [← Set.encard_sdiff_singleton_add_one hin]
      simp

theorem carriers_modifyTask (sig : Nat) (k : Kernel) (t : Nat) (f : Task → Task) :
    carriers sig (k.modifyTask t f) \ {t} = carriers sig k \ {t} := by
  ext u
  simp only [carriers, Set.mem_sdiff, Set.mem_ofPred_eq, Set.mem_singleton_iff]
  constructor
  · rintro ⟨hbit, hne⟩
    rw [Kernel.modifyTask_ne _ _ hne] at hbit
    exact ⟨hbit, hne⟩
  · rintro ⟨hbit, hne⟩
    rw [Kernel.modifyTask_ne _ _ hne]
    exact ⟨hbit, hne⟩

/-- A write to one task, and what it comes to for that task. -/
theorem weight_modifyTask {t : Nat} {acted sent : Nat}
    (h : (hasSignal sig (f (k.tasks t))).toNat + acted ≤
      (hasSignal sig (k.tasks t)).toNat + sent) :
    weight sig (k.modifyTask t f) + acted ≤ weight sig k + sent := by
  rw [weight_split sig (k.modifyTask t f) t, weight_split sig k t,
    carriers_modifyTask, Kernel.modifyTask_self, add_assoc, add_assoc]
  refine add_le_add le_rfl ?_
  exact_mod_cast h

theorem weight_allocTask {phys : PhysMem} {x : Task} (hx : hasSignal sig x = false) :
    weight sig (allocTask k new phys x) ≤ weight sig k := by
  apply Set.encard_le_encard
  intro t ht
  have hbit : hasSignal sig ((allocTask k new phys x).tasks t) = true := ht
  by_cases hne : t = new
  · rw [hne, allocTask_new, hx] at hbit
    cases hbit
  · rw [allocTask_ne k phys x hne] at hbit
    exact hbit

/-! ### Sending -/

theorem getLsbD_or_sigBit {s : Nat} (hsig : 1 ≤ sig) (hs : 1 ≤ s)
    (hne : s ≠ sig) (p : BitVec 32) :
    (p ||| sigBit s).getLsbD (sig - 1) = p.getLsbD (sig - 1) := by
  have hbit : (sigBit s).getLsbD (sig - 1) = false := by
    rw [sigBit, BitVec.getLsbD_shiftLeft, BitVec.getLsbD_one]
    simp
    omega
  rw [BitVec.getLsbD_or, hbit, Bool.or_false]

theorem weight_set (hsig : 1 ≤ sig) {s : Nat} (hs : 1 ≤ s) (k : Kernel) (t : Nat) :
    weight sig (k.modifyTask t fun x =>
      { x with pendingSignals := x.pendingSignals ||| sigBit s }) ≤
      weight sig k + ((if s = sig then 1 else 0 : Nat) : ℕ∞) := by
  have hwrite : (hasSignal sig { k.tasks t with
      pendingSignals := (k.tasks t).pendingSignals ||| sigBit s }).toNat + 0 ≤
      (hasSignal sig (k.tasks t)).toNat + if s = sig then 1 else 0 := by
    by_cases hne : s = sig
    · rw [if_pos hne]
      exact (Bool.toNat_le _).trans (Nat.le_add_left 1 _)
    · rw [if_neg hne, hasSignal, getLsbD_or_sigBit hsig hs hne, hasSignal]
  have hset := weight_modifyTask (f := fun x : Task =>
    { x with pendingSignals := x.pendingSignals ||| sigBit s }) hwrite
  rwa [Nat.cast_zero, add_zero] at hset

theorem weight_notifyParent (hsig : 1 ≤ sig) (k : Kernel) (t : Nat) :
    weight sig (notifyParent k t) ≤ weight sig k +
      ((if (k.tasks t).parent.isSome then exitSends sig else 0 : Nat) : ℕ∞) := by
  rw [notifyParent]
  cases hparent : (k.tasks t).parent with
  | none => simp
  | some parent =>
      have hset := weight_set hsig (show 1 ≤ sigChld by decide) k parent
      simpa [exitSends, eq_comm] using hset

theorem hasSignal_and_le (sig : Nat) (x : Task) (set : BitVec 32) :
    (hasSignal sig { x with pendingSignals := x.pendingSignals &&& set }).toNat ≤
      (hasSignal sig x).toNat := by
  rw [hasSignal, BitVec.getLsbD_and, hasSignal]
  cases x.pendingSignals.getLsbD (sig - 1) with
  | false => simp
  | true => simpa using Bool.toNat_le _

theorem weight_signalTask (hsig : 1 ≤ sig) {s : Nat} (hs : 1 ≤ s) (k : Kernel)
    (t : Nat) : weight sig (signalTask k t s) ≤
      weight sig k + (signalSends sig k t s : ℕ∞) := by
  obtain ⟨k₁, hk₁⟩ : ∃ k₁, k₁ = k.modifyTask t fun x =>
    { x with pendingSignals := x.pendingSignals ||| sigBit s } := ⟨_, rfl⟩
  have hfirst : weight sig k₁ ≤ weight sig k +
      ((if s = sig then 1 else 0 : Nat) : ℕ∞) := hk₁ ▸ weight_set hsig hs k t
  have hproj : ∀ {α : Type} (π : Task → α),
      (∀ x p, π { x with pendingSignals := p } = π x) →
      π (k₁.tasks t) = π (k.tasks t) := by
    intro α π hπ
    rw [hk₁]
    exact Kernel.modifyTask_proj π k t t (hπ _ _)
  have hstops : stops (k₁.tasks t) s = stops (k.tasks t) s :=
    hproj (stops · s) fun _ _ => rfl
  have hstate := hproj Task.state fun _ _ => rfl
  -- the parent is told after a write that sets no bit
  have htell : ∀ f : Task → Task, (∀ x, (f x).parent = x.parent) →
      (∀ x, (hasSignal sig (f x)).toNat ≤ (hasSignal sig x).toNat) →
      weight sig (notifyParent (k₁.modifyTask t f) t) ≤ weight sig k₁ +
        ((if (k.tasks t).parent.isSome then exitSends sig else 0 : Nat) : ℕ∞) := by
    intro f hparent hf
    have hwrite : weight sig (k₁.modifyTask t f) + ((0 : Nat) : ℕ∞) ≤
        weight sig k₁ + ((0 : Nat) : ℕ∞) := weight_modifyTask (hf _)
    have hnotify := weight_notifyParent hsig (k₁.modifyTask t f) t
    rw [Kernel.modifyTask_self, hparent, hproj Task.parent fun _ _ => rfl]
      at hnotify
    refine hnotify.trans (add_le_add ?_ le_rfl)
    simpa using hwrite
  rw [signalTask, ← hk₁, signalSends, Nat.cast_add, ← add_assoc, hstops]
  by_cases hstop : stops (k.tasks t) s = true
  · rw [if_pos hstop, if_neg fun h => stops_ne_sigCont hstop h.1]
    refine (htell _ ?_ ?_).trans ?_
    · exact fun _ => rfl
    · exact fun x => hasSignal_and_le sig x _
    simp only [hstop, true_or, true_and]
    exact add_le_add hfirst le_rfl
  · rw [if_neg hstop]
    by_cases hcont : s = sigCont ∧ (k.tasks t).state = .stopped
    · rw [if_pos ⟨hcont.1, hstate.trans hcont.2⟩]
      refine (htell _ ?_ ?_).trans ?_
      · exact fun _ => rfl
      · exact fun _ => le_rfl
      simp only [hcont, and_self, or_true, true_and]
      rw [hcont.1] at hfirst
      exact add_le_add hfirst le_rfl
    · rw [if_neg fun h => hcont ⟨h.1, hstate.symm.trans h.2⟩]
      exact hfirst.trans le_self_add

theorem weight_killLoop (hsig : 1 ≤ sig) {s : Nat} (hs : 1 ≤ s) (pid : Int)
    (l : List Nat) (k : Kernel) : weight sig (killLoop pid s l k).2 ≤
      weight sig k + (killSends sig pid s l k : ℕ∞) := by
  induction l generalizing k with
  | nil => simp [killLoop, killSends]
  | cons t rest ih =>
      rw [killLoop, killSends]
      split
      · rw [Nat.cast_add, ← add_assoc]
        exact (ih _).trans (add_le_add (weight_signalTask hsig hs k t) le_rfl)
      · exact ih k

theorem weight_exit (hsig : 1 ≤ sig) {env : CloseEnv} {ret : Int}
    (h : exit env fuel k ret = .ok k') :
    weight sig k' ≤ weight sig k + (exitSends sig : ℕ∞) := by
  obtain ⟨k₁, -, hk₁, htask⟩ := exit_ok h
  have hclosed : KeepsSignal sig k k₁ := by
    rw [hk₁]
    exact .of_attrsOnly (.of_filesOnly (.releaseProcessFds env k))
  obtain ⟨parent, k₂, -, hreparent, rfl⟩ := exitTask_ok htask
  have hzombie : KeepsSignal sig k₁ (k₁.modifyCurrent fun x =>
      { x with state := .zombie, returnCode := ret }) := .modifyTask k₁ _ rfl
  have hset := weight_set hsig (show 1 ≤ sigChld by decide)
    (k₁.modifyCurrent fun x => { x with state := .zombie, returnCode := ret })
    parent
  rw [(hclosed.trans hzombie).weight] at hset
  calc weight sig { k₂ with switching := true }
      = weight sig _ := (KeepsSignal.of_linksOnly (.reparent hreparent)).weight
    _ ≤ weight sig k + (exitSends sig : ℕ∞) := by
        simpa [exitSends, eq_comm] using hset

/-! ### Delivering -/

theorem Context.deliverSignal_other (c : Context Unit) (set : BitVec 32) (hsig : 1 ≤ sig)
    (hne : i + 1 ≠ sig) :
    deliveryActs sig (c.deliverSignal set i) = 0 ∧
      hasSignal sig (c.deliverSignal set i).2.1.task = hasSignal sig c.task := by
  have hclear : ∀ p : BitVec 32, (p &&& ~~~sigBit (i + 1)).getLsbD (sig - 1) =
      p.getLsbD (sig - 1) := fun p => by
    rw [getLsbD_clear, decide_eq_false (show i ≠ sig - 1 by omega)]
    simp
  have hkeep : ∀ p : BitVec 32, (p &&& ~~~sigBit (i + 1) |||
      sigBit (i + 1)).getLsbD (sig - 1) = p.getLsbD (sig - 1) := fun p => by
    rw [getLsbD_or_sigBit hsig (by omega) hne, hclear]
  have hret : (-(i : Int) - 1) ≠ -(sig : Int) := by omega
  have hcount : List.count sig [i + 1] = 0 := by
    rw [List.count_eq_zero, List.mem_singleton]
    exact hne.symm
  rw [Context.deliverSignal, GlitchedOS.deliverSignal]
  by_cases hbit : set.getLsbD i = true
  swap
  · simp [handles, hbit, deliveryActs]
  cases hhandler : c.task.signalHandlers (i + 1) with
  | dfl =>
      by_cases hterm : signalDefaultActions (i + 1) = .terminate
      · simp [handles, hbit, hhandler, hterm, deliveryActs, hret, hasSignal, hclear]
      · simp [handles, hbit, hhandler, hterm, deliveryActs, hasSignal, hclear]
  | ign => simp [handles, hbit, hhandler, deliveryActs, hasSignal, hclear]
  | user addr =>
      by_cases hcs : c.task.iframe.cs = userCs
      · simp [handles, hbit, hhandler, hcs, deliveryActs, hcount, enterHandler,
          hasSignal, hclear]
      · simp [handles, hbit, hhandler, hcs, deliveryActs, hasSignal, hkeep]

/-- The round for the signal uses its bit up, if it acts on it. -/
theorem Context.deliverSignal_same {set : BitVec 32} (hi : i + 1 = sig) {c : Context Unit}
    (hset : set.getLsbD i = true → hasSignal sig c.task = true) :
    (hasSignal sig (c.deliverSignal set i).2.1.task).toNat +
      deliveryActs sig (c.deliverSignal set i) ≤ (hasSignal sig c.task).toNat := by
  subst hi
  have hclear : ∀ p : BitVec 32,
      (p &&& ~~~sigBit (i + 1)).getLsbD i = false := fun p => by
    rw [getLsbD_clear]
    simp
  have hret : (-(i : Int) - 1) = -((i + 1 : Nat) : Int) := by omega
  rw [Context.deliverSignal, GlitchedOS.deliverSignal]
  by_cases hbit : set.getLsbD i = true
  swap
  · simp [handles, hbit, deliveryActs]
  rw [hset hbit]
  cases hhandler : c.task.signalHandlers (i + 1) with
  | dfl =>
      by_cases hterm : signalDefaultActions (i + 1) = .terminate
      · simp [handles, hbit, hhandler, hterm, deliveryActs, hret, hasSignal, hclear]
      · simp [handles, hbit, hhandler, hterm, deliveryActs, hasSignal, hclear]
  | ign => simp [handles, hbit, hhandler, deliveryActs, hasSignal, hclear]
  | user addr =>
      by_cases hcs : c.task.iframe.cs = userCs
      · simp [handles, hbit, hhandler, hcs, deliveryActs, enterHandler, hasSignal,
          hclear]
      · simp [handles, hbit, hhandler, hcs, deliveryActs]
        exact Bool.toNat_le _

theorem Context.deliverLoop_succ (set : BitVec 32) (n i : Nat) (c : Context Unit) :
    (∃ ret, (c.deliverSignal set i).2.2 = some ret ∧
      c.deliverLoop set (n + 1) i = c.deliverSignal set i) ∨
    ∃ later, (c.deliverSignal set i).2.2 = none ∧
      (c.deliverSignal set i).2.1.deliverLoop set n (i + 1) = later ∧
      c.deliverLoop set (n + 1) i =
        ((c.deliverSignal set i).1 ++ later.1, later.2) := by
  rcases hround : c.deliverSignal set i with ⟨entered, c₁, ret⟩
  rw [Context.deliverLoop, hround]
  cases ret with
  | some ret => exact Or.inl ⟨ret, rfl, rfl⟩
  | none => exact Or.inr ⟨_, rfl, rfl, rfl⟩

theorem deliveryActs_append {entered : List Nat} {c : Context Unit}
    {later : List Nat × Context Unit × Option Int} :
    deliveryActs sig (entered ++ later.1, later.2) =
      deliveryActs sig (entered, c, none) + deliveryActs sig later := by
  simp [deliveryActs, List.count_append]
  omega

theorem Context.deliverLoop_past (c : Context Unit) (set : BitVec 32) (n : Nat) (hsig : 1 ≤ sig)
    (hi : sig ≤ i) :
    deliveryActs sig (c.deliverLoop set n i) = 0 ∧
      hasSignal sig (c.deliverLoop set n i).2.1.task = hasSignal sig c.task := by
  induction n generalizing i c with
  | zero => exact ⟨by simp [Context.deliverLoop, deliveryActs], rfl⟩
  | succ n ih =>
      obtain ⟨hacts, hkeep⟩ :=
        c.deliverSignal_other set hsig (show i + 1 ≠ sig by omega)
      rcases c.deliverLoop_succ set n i with ⟨ret, -, heq⟩ | ⟨later, hnone, rfl, heq⟩
      · rw [heq]
        exact ⟨hacts, hkeep⟩
      · obtain ⟨hlater, hkept⟩ := ih (c.deliverSignal set i).2.1
          (show sig ≤ i + 1 by omega)
        rw [heq]
        refine ⟨?_, hkept.trans hkeep⟩
        rcases hround : c.deliverSignal set i with ⟨entered, c₁, ret⟩
        rw [hround] at hacts hnone hlater
        dsimp only at hnone
        rw [hnone] at hacts
        rw [deliveryActs_append (c := c₁), hacts, hlater]

/-- A delivery of signals that are pending uses up the bit of a signal that it acts
on. -/
theorem Context.deliverLoop_acts {set : BitVec 32} (hsig : 1 ≤ sig) {n : Nat}
    {c : Context Unit}
    (hset : set.getLsbD (sig - 1) = true → hasSignal sig c.task = true) :
    (hasSignal sig (c.deliverLoop set n i).2.1.task).toNat +
      deliveryActs sig (c.deliverLoop set n i) ≤ (hasSignal sig c.task).toNat := by
  induction n generalizing i c with
  | zero => simp [Context.deliverLoop, deliveryActs]
  | succ n ih =>
      rcases c.deliverLoop_succ set n i with ⟨ret, -, heq⟩ | ⟨later, hnone, rfl, heq⟩
      · rw [heq]
        by_cases hi : i + 1 = sig
        · have hset' : set.getLsbD i = true → hasSignal sig c.task = true := by
            rwa [show sig - 1 = i by omega] at hset
          exact c.deliverSignal_same hi hset'
        · obtain ⟨hacts, hkeep⟩ := c.deliverSignal_other set hsig hi
          rw [hacts, hkeep, Nat.add_zero]
      · rcases hround : c.deliverSignal set i with ⟨entered, c₁, ret⟩
        rw [hround] at heq hnone
        dsimp only at heq hnone
        subst hnone
        rw [heq, deliveryActs_append (c := c₁)]
        by_cases hi : i + 1 = sig
        · have hset' : set.getLsbD i = true → hasSignal sig c.task = true := by
            rwa [show sig - 1 = i by omega] at hset
          have hsame := c.deliverSignal_same hi hset'
          obtain ⟨hacts, hkeep⟩ := c₁.deliverLoop_past set n hsig
            (show sig ≤ i + 1 by omega)
          rw [hround] at hsame
          dsimp only at hsame hkeep ⊢
          rw [hkeep, hacts]
          omega
        · obtain ⟨hacts, hkeep⟩ := c.deliverSignal_other set hsig hi
          rw [hround] at hacts hkeep
          dsimp only at hkeep
          have hlater := ih (i := i + 1) (c := c₁) (hkeep ▸ hset)
          rw [hkeep] at hlater
          rw [hacts]
          dsimp only at hlater ⊢
          omega

theorem weight_deliverSignals (hsig : 1 ≤ sig) {env : CloseEnv}
    (h : deliverSignals env fuel k = .ok k') :
    weight sig k' + (deliveryActs sig (delivery k) : ℕ∞) ≤
      weight sig k + (deliverySends sig (delivery k) : ℕ∞) := by
  have hacts : (hasSignal sig (delivery k).2.1.task).toNat +
      deliveryActs sig (delivery k) ≤ (hasSignal sig k.currentTask).toNat + 0 := by
    rw [delivery, Context.deliverSignals]
    dsimp only
    split
    · simp [deliveryActs]
    split
    · simp [deliveryActs]
    · refine Context.deliverLoop_acts hsig fun hbit => ?_
      rw [deliverable, BitVec.getLsbD_and, Bool.and_eq_true] at hbit
      exact hbit.1
  have hwrite := weight_modifyTask (t := k.current)
    (f := fun _ => (delivery k).2.1.task) hacts
  rw [Context.deliverSignals_kernel (c := ⟨k.currentTask, zeroRegisters, (),
    zeroRegisters, ()⟩) env fuel rfl, ← delivery] at h
  rcases hdone : delivery k with ⟨entered, c, ret⟩
  rw [hdone] at h hwrite
  rw [Nat.cast_zero, add_zero] at hwrite
  cases ret with
  | none =>
      obtain rfl := Except.ok.inj h
      refine hwrite.trans ?_
      simp [deliverySends]
  | some ret =>
      have hexit := weight_exit hsig h
      calc weight sig k' + (deliveryActs sig (entered, c, some ret) : ℕ∞)
          ≤ weight sig (k.modifyCurrent fun _ => c.task) + (exitSends sig : ℕ∞) +
            (deliveryActs sig (entered, c, some ret) : ℕ∞) :=
              add_le_add hexit le_rfl
        _ = weight sig (k.modifyCurrent fun _ => c.task) +
            (deliveryActs sig (entered, c, some ret) : ℕ∞) +
              (exitSends sig : ℕ∞) := add_right_comm _ _ _
        _ ≤ weight sig k + (exitSends sig : ℕ∞) := add_le_add hwrite le_rfl
        _ = weight sig k +
            (deliverySends sig (entered, c, some ret) : ℕ∞) := by
              simp [deliverySends]

/-! ### New tasks -/

theorem weight_newTask {pid : Int} (hbit : hasSignal sig k.currentTask = false)
    (h : newTask k new pid = .ok k') : weight sig k' ≤ weight sig k := by
  obtain ⟨cr3, phys, -, rfl⟩ := newTask_ok h
  rw [(KeepsSignal.of_attrsOnly (.of_filesOnly (.addRefs _ _))).weight]
  exact weight_allocTask hbit

theorem weight_addTask {env : ExecEnv} {args : ExecArgs}
    {parent : Option Nat} {pid res : Int}
    (hbit : ∀ actions, validateArgs args = .ok actions →
      hasSignal sig k.currentTask = false)
    (h : addTask env fuel k args parent pid new = .ok (res, k')) :
    weight sig k' ≤ weight sig k := by
  rcases addTask_ok h with ⟨-, rfl⟩ | ⟨actions, k₁, hargs, hnew, hrest⟩
  · exact le_rfl
  have hmade := weight_newTask (hbit actions hargs) hnew
  rcases hrest with hattrs | ⟨p, k₂, -, -, hattrs, rfl⟩
  · rw [(KeepsSignal.of_attrsOnly hattrs).weight]
    exact hmade
  · rw [(KeepsSignal.of_linksOnly (.linkTask k₂ new p)).weight,
      (KeepsSignal.of_attrsOnly hattrs).weight]
    exact hmade

theorem weight_fork (hbit : hasSignal sig k.currentTask = false)
    (h : fork k new = .ok k') : weight sig k' ≤ weight sig k := by
  obtain ⟨cr3, phys, k₁, -, hk₁, rfl⟩ := fork_ok h
  have hlink : KeepsSignal sig k₁ (forkLink k₁ new) := by
    refine .trans (.of_linksOnly (.linkTask k₁ new k₁.current)) (.of_proj fun t => ?_)
    exact forkLink_proj Task.pendingSignals (fun _ _ _ _ => rfl) k₁ new t
  rw [hlink.weight, hk₁,
    (KeepsSignal.of_attrsOnly (.of_filesOnly (.addRefs _ _))).weight]
  exact weight_allocTask hbit

theorem weight_createKworker {regs : Iframe}
    (hbit : hasSignal sig (k.tasks initTask) = false)
    (h : createKworker k new regs = .ok k') : weight sig k' ≤ weight sig k := by
  obtain ⟨cr3, phys, -, rfl⟩ := createKworker_ok h
  have hnext : KeepsSignal sig (allocTask { k with lastPid := k.lastPid + 1 } new
      phys (kworkerTask k cr3 regs)) ((allocTask { k with lastPid := k.lastPid + 1 }
        new phys (kworkerTask k cr3 regs)).modifyTask k.current fun x =>
          { x with next := new }) := .modifyTask _ _ rfl
  rw [hnext.weight]
  exact weight_allocTask hbit

theorem enterSyscall_hasSignal (k : Kernel) (number : Int) :
    hasSignal sig (enterSyscall k number).currentTask =
      hasSignal sig k.currentTask :=
  KeepsSignal.enterSyscall k number k.current

theorem weight_sysSpawn {env : ExecEnv} {pathRes : Int} {args : ExecArgs}
    (hbit : 0 ≤ pathRes → ∀ actions, validateArgs args = .ok actions →
      hasSignal sig k.currentTask = false)
    (h : sysSpawn env fuel k pathRes args new = .ok k') :
    weight sig k' ≤ weight sig k := by
  have henter : weight sig (enterSyscall k 54) = weight sig k :=
    (KeepsSignal.enterSyscall k 54).weight
  rw [sysSpawn] at h
  dsimp only at h
  split at h
  · obtain rfl := Except.ok.inj h
    exact ((KeepsSignal.enterSyscall _ _).weight.trans henter).le
  rename_i hpath
  rw [bind_ok_iff] at h
  obtain ⟨⟨res, k₁⟩, hspawn, h⟩ := h
  obtain ⟨k₂, hadd, hend⟩ := spawn_ok hspawn
  have hmade : weight sig k₂ ≤ weight sig k := by
    refine (weight_addTask (fun actions hargs => ?_) hadd).trans henter.le
    exact (enterSyscall_hasSignal k 54).trans (hbit (not_lt.mp hpath) actions hargs)
  have hdone : weight sig k₁ = weight sig k₂ := by
    rcases hend with ⟨-, rfl⟩ | ⟨-, rfl⟩
    · rfl
    · have hready : KeepsSignal sig k₂ (k₂.modifyCurrent fun x => { x with
          state := .ready, iframe := { x.iframe with rax := res } }) :=
        .modifyTask k₂ _ rfl
      exact hready.weight
  dsimp only at h
  split at h
  · obtain rfl := Except.ok.inj h
    exact hdone.trans_le hmade
  · obtain rfl := Except.ok.inj h
    exact ((KeepsSignal.enterSyscall _ _).weight.trans hdone).trans_le hmade

theorem weight_sysExecve {env : ExecEnv} {pathRes : Int} {args : ExecArgs}
    (hbit : 0 ≤ pathRes → ∀ actions,
      validateArgs { args with actions := none } = .ok actions →
        hasSignal sig k.currentTask = false)
    (h : sysExecve env fuel k pathRes args new = .ok k') :
    weight sig k' ≤ weight sig k := by
  have henter : weight sig (enterSyscall k 12) = weight sig k :=
    (KeepsSignal.enterSyscall k 12).weight
  rw [sysExecve] at h
  dsimp only at h
  split at h
  · obtain rfl := Except.ok.inj h
    exact ((KeepsSignal.enterSyscall _ _).weight.trans henter).le
  rename_i hpath
  rw [bind_ok_iff] at h
  obtain ⟨⟨res, k₁⟩, hexec, h⟩ := h
  obtain ⟨k₂, hadd, hend⟩ := execve_ok hexec
  have hmade : weight sig k₂ ≤ weight sig k := by
    refine (weight_addTask (fun actions hargs => ?_) hadd).trans henter.le
    exact (enterSyscall_hasSignal k 12).trans (hbit (not_lt.mp hpath) actions hargs)
  have hdone : weight sig k₁ = weight sig k₂ := by
    rcases hend with ⟨-, rfl⟩ | ⟨-, ring, k₃, k₄, -, hk₃, hk₄, hfinish⟩
    · rfl
    obtain ⟨k₅, hreparent, rfl⟩ := execveFinish_ok hfinish
    have hdeleted : KeepsSignal sig k₂ (k₂.modifyTask (enterSyscall k 12).current
        fun x => { x with state := .deleted }) := .modifyTask k₂ _ rfl
    have hwaiters : KeepsSignal sig k₂ k₃ := by
      rw [hk₃]
      exact hdeleted.trans (.of_proj (redirectWaiters_proj Task.pendingSignals
        (fun _ _ => rfl) _ new _ _))
    have hclosed : KeepsSignal sig k₃ k₄ := by
      rw [hk₄]
      exact .of_attrsOnly (.of_filesOnly (.releaseProcessFds env.closeEnv k₃))
    have hchildren : KeepsSignal sig k₄ k₅ := .of_linksOnly (.reparent hreparent)
    exact ((hwaiters.trans hclosed).trans hchildren).weight
  dsimp only at h
  split at h
  · obtain rfl := Except.ok.inj h
    exact hdone.trans_le hmade
  · obtain rfl := Except.ok.inj h
    exact ((KeepsSignal.enterSyscall _ _).weight.trans hdone).trans_le hmade

/-! ### Steps and runs -/

theorem Op.quiet_weight {op : Op} {reports : List (Nat × WaitEvent)}
    (hplain : op.plain = true) (hrun : op.run fuel k = .ok (reports, k')) :
    weight sig k' = weight sig k :=
  (KeepsSignal.of_attrsOnly (Op.plain_attrs hplain hrun)).weight

theorem weight_block (hf : ∀ x, (f x).pendingSignals = x.pendingSignals)
    (h : runNext fuel (k.modifyCurrent f) = .ok k') :
    weight sig k' = weight sig k := by
  have hblocked : KeepsSignal sig k (k.modifyCurrent f) := .modifyTask k _ (hf _)
  exact (hblocked.trans (.runNext h)).weight

theorem weight_sleep {ms : BitVec 64} (h : sleep fuel k ms = .ok k') :
    weight sig k' = weight sig k := by
  rw [sleep] at h
  split at h
  · obtain rfl := Except.ok.inj h
    have hrax : KeepsSignal sig k (k.modifyCurrent fun x =>
        { x with iframe := { x.iframe with rax := 0 } }) := .modifyTask k _ rfl
    exact hrax.weight
  · refine weight_block ?_ h
    exact fun _ => rfl

theorem weight_sysWaitpid {pid : Int} {wstatus : Option Nat}
    {options : BitVec 32} {reports : List (Nat × WaitEvent)}
    (h : sysWaitpid fuel k pid wstatus options = .ok (reports, k')) :
    weight sig k' = weight sig k := by
  rw [sysWaitpid, bind_ok_iff] at h
  obtain ⟨⟨r, k₁⟩, hwait, h⟩ := h
  have henter : weight sig (enterSyscall k 53) = weight sig k :=
    (KeepsSignal.enterSyscall k 53).weight
  rcases waitpid_ok hwait with ⟨ret, -, rfl, rfl⟩ |
      ⟨child, event, -, -, rfl, rfl⟩ | ⟨rfl, target, -, hnext⟩
  · obtain ⟨-, rfl⟩ := Prod.mk.inj (Except.ok.inj h)
    exact (KeepsSignal.enterSyscall _ _).weight.trans henter
  · obtain ⟨-, rfl⟩ := Prod.mk.inj (Except.ok.inj h)
    refine (KeepsSignal.enterSyscall _ _).weight.trans
      (Eq.trans (KeepsSignal.weight ?_) henter)
    exact .of_waitOnly ((WaitOnly.storeStatus _ _ _ _).trans (.consumeEvent _ _ _))
  · obtain ⟨-, rfl⟩ := Prod.mk.inj (Except.ok.inj h)
    refine (weight_block ?_ hnext).trans henter
    exact fun _ => rfl

/-- What a step of the system does to the number of tasks that have the signal
pending: each send may make one, each act takes one. -/
theorem weight_step (hsig : 1 ≤ sig) {op : SignalOp}
    (hcopies : op.CopiesNone sig k) (hrun : op.run fuel k = .ok k') :
    weight sig k' + (op.acts sig fuel k : ℕ∞) ≤
      weight sig k + (op.sends sig fuel k : ℕ∞) := by
  have hquiet : weight sig k' ≤ weight sig k →
      weight sig k' + ((0 : Nat) : ℕ∞) ≤ weight sig k + ((0 : Nat) : ℕ∞) :=
    fun h => add_le_add h le_rfl
  cases op with
  | sigreturn env =>
      rw [SignalOp.run, sysSigreturn] at hrun
      rw [SignalOp.acts, SignalOp.sends]
      split at hrun
      · rename_i hin
        obtain rfl := Except.ok.inj hrun
        rw [if_pos hin, if_pos hin]
        exact hquiet (KeepsSignal.enterSyscall _ _).weight.le
      · rename_i hin
        rw [if_neg hin, if_neg hin]
        have hleft : KeepsSignal sig k (handlerLeft k) := by
          rw [handlerLeft]
          exact .modifyTask k _ rfl
        rw [← hleft.weight]
        exact weight_deliverSignals hsig hrun
  | sys op =>
      rw [SignalOp.run, bind_ok_iff] at hrun
      obtain ⟨⟨reports, k₁⟩, hrun, hk⟩ := hrun
      obtain rfl := Except.ok.inj hk
      cases op with
      | switchTask env =>
          replace hrun := reportsNone_ok hrun
          obtain ⟨next, rr, hnext, hdeliver⟩ := switchTask_ok hrun
          have hchosen : switched fuel k = chooseTask k (next.getD idleTask) rr := by
            rw [switched, hnext]
          have hkeep : KeepsSignal sig k (k.modifyTask (next.getD idleTask) fun x =>
              { x with state := .running }) := .modifyTask k _ rfl
          have hweight : weight sig (chooseTask k (next.getD idleTask) rr) =
              weight sig k := hkeep.weight
          rw [SignalOp.acts, SignalOp.sends, hchosen, ← hweight]
          exact weight_deliverSignals hsig hdeliver
      | deliverSignals env =>
          replace hrun := reportsNone_ok hrun
          exact weight_deliverSignals hsig hrun
      | runNext =>
          replace hrun := reportsNone_ok hrun
          exact hquiet (KeepsSignal.runNext hrun).weight.le
      | checkBlockedTasks reduceTicks =>
          rw [Op.run, GlitchedOS.checkBlockedTasks, bind_ok_iff] at hrun
          obtain ⟨ring, -, hrun⟩ := hrun
          exact hquiet (KeepsSignal.of_waitOnly (.checkBlockedLoop hrun)).weight.le
      | createKworker new regs =>
          replace hrun := reportsNone_ok hrun
          exact hquiet (weight_createKworker hcopies hrun)
      | kworkerExit =>
          obtain ⟨-, rfl⟩ := Prod.mk.inj (Except.ok.inj hrun)
          apply hquiet
          rw [GlitchedOS.kworkerExit]
          split
          · exact le_rfl
          · have hdeleted : KeepsSignal sig k (k.modifyCurrent fun x =>
                { x with state := .deleted }) := .modifyTask k _ rfl
            exact hdeleted.weight.le
      | sleep ms =>
          replace hrun := reportsNone_ok hrun
          exact hquiet ((weight_sleep hrun).trans
            (KeepsSignal.enterSyscall k 16).weight).le
      | fork new =>
          replace hrun := reportsNone_ok hrun
          have hbit := (enterSyscall_hasSignal k 11).trans hcopies
          exact hquiet ((weight_fork hbit hrun).trans
            (KeepsSignal.enterSyscall k 11).weight.le)
      | spawn env pathRes args new =>
          replace hrun := reportsNone_ok hrun
          exact hquiet (weight_sysSpawn hcopies hrun)
      | execve env pathRes args new =>
          replace hrun := reportsNone_ok hrun
          exact hquiet (weight_sysExecve hcopies hrun)
      | exit env ret =>
          replace hrun := reportsNone_ok hrun
          have henter : weight sig (enterSyscall k 0) = weight sig k :=
            (KeepsSignal.enterSyscall k 0).weight
          have hexit := weight_exit hsig hrun
          rw [henter] at hexit
          rw [SignalOp.acts, Nat.cast_zero, add_zero]
          · exact hexit
          all_goals simp
      | waitpid pid wstatus options => exact hquiet (weight_sysWaitpid hrun).le
      | kill pid s =>
          obtain ⟨-, res, k₂, rfl, hkill⟩ := kill_ok hrun
          have hleave : weight sig (leaveSyscall (res, k₂)) = weight sig k₂ :=
            (KeepsSignal.enterSyscall k₂ res).weight
          rw [SignalOp.sends, hleave]
          obtain ⟨hbad, rfl⟩ | ⟨hgood, ring, hring, rfl⟩ := hkill
          · rw [if_pos hbad]
            exact le_rfl
          · rw [if_neg hgood, hring]
            have hloop := weight_killLoop hsig (show 1 ≤ s by omega) pid ring k
            simpa [SignalOp.acts] using hloop
      | raise s =>
          obtain ⟨-, rfl⟩ := Prod.mk.inj (Except.ok.inj hrun)
          have hleave : weight sig (leaveSyscall (GlitchedOS.raise k s)) =
              weight sig (GlitchedOS.raise k s).2 :=
            (KeepsSignal.enterSyscall _ _).weight
          rw [hleave, GlitchedOS.raise, SignalOp.sends]
          by_cases hbad : s < 1 ∨ 31 < s
          · rw [if_pos hbad, if_pos hbad]
            exact le_rfl
          · rw [if_neg hbad, if_neg hbad]
            have hsend := weight_signalTask hsig (show 1 ≤ s by omega) k k.current
            simpa [SignalOp.acts] using hsend
      | userCode _ | sigaction _ _ | fdOpen _ _ | fdClose _ _ | fcntl _ _ _
      | dup2 _ _ _ | pipe _ | fdSocket _ _ | sigprocmask _ _ | setpgid _ _
      | setsid | mount _ _ _ _ | unmount _ _ _ =>
          exact hquiet (Op.quiet_weight rfl hrun).le

/-- Each act was paid for by a send: what is sent is acted on, lost, or still
pending. -/
def SignalCount.Paid (sig : Nat) (s : SignalCount) : Prop :=
  weight sig s.kernel + (s.acted : ℕ∞) ≤ (s.sent : ℕ∞)

theorem SignalCount.Paid.step (hsig : 1 ≤ sig) {s s' : SignalCount}
    {op : SignalOp} (hinv : s.Paid sig) (hstep : UncopiedStep sig s op s') :
    s'.Paid sig := by
  obtain ⟨hcopies, -, fuel, hop, hsent, hacted⟩ := hstep
  have hweight := weight_step hsig hcopies hop
  rw [Paid, hsent, hacted, Nat.cast_add, Nat.cast_add]
  calc weight sig s'.kernel +
        ((s.acted : ℕ∞) + (op.acts sig fuel s.kernel : ℕ∞))
      = weight sig s'.kernel + (op.acts sig fuel s.kernel : ℕ∞) +
          (s.acted : ℕ∞) := by rw [add_comm (s.acted : ℕ∞), add_assoc]
    _ ≤ weight sig s.kernel + (op.sends sig fuel s.kernel : ℕ∞) +
          (s.acted : ℕ∞) := add_le_add hweight le_rfl
    _ = weight sig s.kernel + (s.acted : ℕ∞) +
          (op.sends sig fuel s.kernel : ℕ∞) := add_right_comm _ _ _
    _ ≤ (s.sent : ℕ∞) + (op.sends sig fuel s.kernel : ℕ∞) :=
          add_le_add hinv le_rfl

theorem bootKernel_weight (info : BootInfo) : weight sig (bootKernel info) = 0 := by
  rw [weight, Set.encard_eq_zero, Set.eq_empty_iff_forall_notMem]
  intro t ht
  have hbit : (bootTasks info t).pendingSignals.getLsbD (sig - 1) = true := ht
  have hzero : (bootTasks info t).pendingSignals = 0#32 := by
    rw [bootTasks]
    split
    · rfl
    split <;> rfl
  rw [hzero, BitVec.getLsbD_zero] at hbit
  cases hbit

/-- The system after boot, where no signal was sent. -/
def bootCount (info : BootInfo) : SignalCount := ⟨bootKernel info, 0, 0⟩

/-- In every run that copies no task with the signal pending, a signal that is sent
once is acted on at most once. -/
theorem signal_acted_once (info : BootInfo) (hsig : 1 ≤ sig)
    {ops : List SignalOp} {s : SignalCount}
    (hrun : Run (UncopiedStep sig) (bootCount info) ops s) (hsent : s.sent = 1) :
    s.acted ≤ 1 := by
  have hstart : (bootCount info).Paid sig := by
    rw [SignalCount.Paid, bootCount, bootKernel_weight]
    simp
  have hend : s.Paid sig := hrun.invariant (SignalCount.Paid sig)
    (fun _ _ _ hstep hinv => hinv.step hsig hstep) hstart
  rw [SignalCount.Paid, hsent] at hend
  have hacted : (s.acted : ℕ∞) ≤ ((1 : Nat) : ℕ∞) := le_trans le_add_self hend
  exact_mod_cast hacted

/-! ### Concrete runs -/

instance signalOpEnabledDecidable (k : Kernel) (op : SignalOp) :
    Decidable (op.enabled k) :=
  match op with
  | .sys op => inferInstanceAs (Decidable (op.enabled k))
  | .sigreturn _ =>
      inferInstanceAs (Decidable (k.switching = false ∧
        k.currentTask.isKworker = false))

/-- The operations in order, each where it is enabled. -/
def runCounted (sig fuel : Nat) : List SignalOp → SignalCount → Option SignalCount
  | [], s => some s
  | op :: rest, s =>
    if op.enabled s.kernel then
      match op.run fuel s.kernel with
      | .ok k => runCounted sig fuel rest
          ⟨k, s.sent + op.sends sig fuel s.kernel,
            s.acted + op.acts sig fuel s.kernel⟩
      | .error _ => none
    else none

theorem runCounted_run :
    ∀ {ops : List SignalOp} {s s' : SignalCount},
      runCounted sig fuel ops s = some s' → Run (SignalStep sig) s ops s'
  | [], s, _, h => by
      obtain rfl := Option.some.inj h
      exact .nil s
  | op :: rest, s, s', h => by
      rw [runCounted] at h
      split at h
      · rename_i henabled
        split at h
        · rename_i k hop
          exact .cons ⟨henabled, fuel, hop, rfl, rfl⟩ (runCounted_run h)
        · cases h
      · cases h

/-- The first program sends itself `SIGTERM`, for which it has a handler. -/
def termHandled : List SignalOp :=
  [.sys (.sigaction 15 (.user 0x400100#64)), .sys (.kill 1 15),
    .sys (.deliverSignals closes), .sigreturn closes]

set_option maxRecDepth 2000 in
theorem signal_acted_once_handled : ∃ s,
    Run (UncopiedStep 15) (bootCount smallBoot) termHandled s ∧
      s.sent = 1 ∧ s.acted ≤ 1 := by
  have hruns : ∃ s ∈ runCounted 15 8 termHandled (bootCount smallBoot),
      s.sent = 1 := by
    decide +kernel
  obtain ⟨s, hs, hsent⟩ := hruns
  have hrun : Run (UncopiedStep 15) (bootCount smallBoot) termHandled s := by
    refine (runCounted_run hs).mono_of_mem fun s op s' hop hstep => ⟨?_, hstep⟩
    simp only [termHandled, List.mem_cons, List.not_mem_nil, or_false] at hop
    rcases hop with rfl | rfl | rfl | rfl <;> exact trivial
  exact ⟨s, hrun, hsent, signal_acted_once smallBoot (by decide) hrun hsent⟩

/-- The first program blocks `SIGTERM`, sends it to itself and forks; then both
processes unblock it. -/
def termForked : List SignalOp :=
  [.sys (.sigaction 15 (.user 0x400100#64)), .sys (.sigprocmask 0 (sigBit 15)),
    .sys (.kill 1 15), .sys (.fork 2), .sys (.switchTask closes),
    .sys (.sigprocmask 1 (sigBit 15)), .sys (.deliverSignals closes),
    .sys .runNext, .sys (.switchTask closes), .sys (.sigprocmask 1 (sigBit 15)),
    .sys (.deliverSignals closes)]

set_option maxRecDepth 2000 in
/-- A signal sent once, to one process, enters its handler in two processes. -/
theorem forked_signal_acted_twice : ∃ s,
    Run (SignalStep 15) (bootCount smallBoot) termForked s ∧
      s.sent = 1 ∧ s.acted = 2 := by
  have hruns : ∃ s ∈ runCounted 15 8 termForked (bootCount smallBoot),
      s.sent = 1 ∧ s.acted = 2 := by
    decide +kernel
  obtain ⟨s, hs, hcounts⟩ := hruns
  exact ⟨s, runCounted_run hs, hcounts⟩

end GlitchedOS
