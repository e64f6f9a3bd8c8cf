/-
Exit statuses.  `exit` keeps the status of a program and the number of the signal that
ended it in one signed `return_code`, `waitpid` makes a word of it, and the macros of the
C library take the word apart.  A negative status reads as a signal.
-/
import GlitchedOS.Process.BlockedCalls
import GlitchedOS.Process.TaskInvariant
import GlitchedOS.Process.WaitAgree
import Mathlib.Tactic.Ring

namespace GlitchedOS

variable {k k' k₁ k₂ : Kernel} {t : Nat} {word : BitVec 32}

/-- `WIFEXITED` -/
def wIfExited (s : BitVec 32) : Bool := decide (s &&& 0x7f#32 = 0#32)

/-- `WEXITSTATUS`; the word is an `int`. -/
def wExitStatus (s : BitVec 32) : BitVec 32 := s.sshiftRight 8 &&& 0xff#32

/-- `WIFSIGNALED` -/
def wIfSignaled (s : BitVec 32) : Bool :=
  decide (s &&& 0x7f#32 ≠ 0#32) && decide (s &&& 0x7f#32 ≠ 0x7f#32) && decide (s ≠ 0xffff#32)

/-- `WTERMSIG` -/
def wTermSig (s : BitVec 32) : BitVec 32 := s &&& 0x7f#32

/-- `WIFSTOPPED` -/
def wIfStopped (s : BitVec 32) : Bool := decide (s &&& 0xff#32 = 0x7f#32)

/-- `WIFCONTINUED` -/
def wIfContinued (s : BitVec 32) : Bool := decide (s = 0xffff#32)

/-- The word tells of a program that exited with `status`, and of nothing else. -/
structure ReportsExit (status : Int) (word : BitVec 32) : Prop where
  exited : wIfExited word = true
  signaled : wIfSignaled word = false
  stopped : wIfStopped word = false
  continued : wIfContinued word = false
  status : wExitStatus word = BitVec.ofInt 32 status &&& 0xff#32

/-- The word tells of a program that the signal ended, and of nothing else. -/
structure ReportsSignal (sig : Nat) (word : BitVec 32) : Prop where
  signaled : wIfSignaled word = true
  exited : wIfExited word = false
  stopped : wIfStopped word = false
  continued : wIfContinued word = false
  termSig : wTermSig word = BitVec.ofNat 32 sig

theorem and_mask_toNat (s : BitVec 32) {n : Nat} (hn : n < 32) :
    (s &&& BitVec.ofNat 32 (2 ^ n - 1)).toNat = s.toNat % 2 ^ n := by
  have hlt : 2 ^ n - 1 < 2 ^ 32 := by
    have hpow := Nat.pow_lt_pow_right (show 1 < 2 by decide) hn
    omega
  rw [BitVec.toNat_and, BitVec.toNat_ofNat, Nat.mod_eq_of_lt hlt, Nat.and_two_pow_sub_one_eq_mod]

theorem and_seven_toNat (s : BitVec 32) : (s &&& 0x7f#32).toNat = s.toNat % 128 :=
  and_mask_toNat s (n := 7) (by decide)

theorem and_eight_toNat (s : BitVec 32) : (s &&& 0xff#32).toNat = s.toNat % 256 :=
  and_mask_toNat s (n := 8) (by decide)

/-- The sign of the word is shifted to where the mask cuts it off. -/
theorem wExitStatus_toNat (s : BitVec 32) : (wExitStatus s).toNat = s.toNat / 256 % 256 := by
  have hshift : s.sshiftRight 8 &&& 0xff#32 = (s >>> 8) &&& 0xff#32 := by
    apply BitVec.eq_of_getLsbD_eq
    intro i hi
    have hmask : 8 ≤ i → (0xff#32).getLsbD i = false := by
      revert i
      decide
    rw [BitVec.getLsbD_and, BitVec.getLsbD_and, BitVec.getLsbD_sshiftRight,
      BitVec.getLsbD_ushiftRight]
    by_cases hlow : i < 8
    · simp [show ¬32 ≤ i by omega, show 8 + i < 32 by omega]
    · rw [hmask (by omega), Bool.and_false, Bool.and_false]
  rw [wExitStatus, hshift, and_eight_toNat, BitVec.toNat_ushiftRight, Nat.shiftRight_eq_div_pow]

theorem reportsExit_iff {status : Int} : ReportsExit status word ↔
    word.toNat % 128 = 0 ∧ ((word.toNat / 256 % 256 : Nat) : Int) = status % 256 := by
  have hstatus : (BitVec.ofInt 32 status &&& 0xff#32).toNat = (status % 256).toNat := by
    rw [and_eight_toNat, BitVec.toNat_ofInt]
    omega
  constructor
  · intro h
    have hexited := congrArg BitVec.toNat (of_decide_eq_true h.exited)
    have hcode := congrArg BitVec.toNat h.status
    rw [and_seven_toNat] at hexited
    rw [wExitStatus_toNat, hstatus] at hcode
    exact ⟨hexited, by omega⟩
  · rintro ⟨hlow, hcode⟩
    have hseven : word &&& 0x7f#32 = 0#32 := by
      apply BitVec.eq_of_toNat_eq
      rw [and_seven_toNat]
      exact hlow
    refine ⟨decide_eq_true hseven, by simp [wIfSignaled, hseven], decide_eq_false fun h => ?_,
      decide_eq_false fun h => ?_, BitVec.eq_of_toNat_eq ?_⟩
    · have height := congrArg BitVec.toNat h
      rw [and_eight_toNat, BitVec.toNat_ofNat] at height
      omega
    · have hall := congrArg BitVec.toNat h
      rw [BitVec.toNat_ofNat] at hall
      omega
    · rw [wExitStatus_toNat, hstatus]
      omega

theorem reportsSignal_of_toNat {sig : Nat} (hpos : 1 ≤ sig) (hsig : sig ≤ 31)
    (h : word.toNat = sig) : ReportsSignal sig word := by
  have hseven : (word &&& 0x7f#32).toNat = sig := by
    rw [and_seven_toNat, h]
    omega
  have hne : ∀ n < 2 ^ 32, n ≠ sig → word &&& 0x7f#32 ≠ BitVec.ofNat 32 n := by
    intro n hn hne heq
    rw [heq, BitVec.toNat_ofNat, Nat.mod_eq_of_lt hn] at hseven
    exact hne hseven
  have hall : word ≠ 0xffff#32 := by
    rintro rfl
    rw [BitVec.toNat_ofNat] at h
    omega
  refine ⟨?_, decide_eq_false (hne 0 (by decide) (by omega)), decide_eq_false fun heq => ?_,
    decide_eq_false hall, BitVec.eq_of_toNat_eq ?_⟩
  · simp [wIfSignaled, hne 0 (by decide) (by omega), hne 0x7f (by decide) (by omega), hall]
  · have height := congrArg BitVec.toNat heq
    rw [and_eight_toNat, BitVec.toNat_ofNat, h] at height
    omega
  · rw [wTermSig, hseven, BitVec.toNat_ofNat]
    omega

theorem exitWord_of_nonneg {status : Int} (h : 0 ≤ status) :
    ((exitWord status).toNat : Int) = status * 256 % 2 ^ 32 := by
  rw [exitWord, if_pos h, wExitcode, show BitVec.ofInt 32 0 = 0#32 from rfl, BitVec.or_zero,
    BitVec.toNat_shiftLeft, Nat.shiftLeft_eq, BitVec.toNat_ofInt]
  omega

theorem exitWord_of_neg {status : Int} (h : status < 0) :
    ((exitWord status).toNat : Int) = -status % 2 ^ 32 := by
  rw [exitWord, if_neg (not_le.mpr h), wExitcode, show BitVec.ofInt 32 0 = 0#32 from rfl,
    BitVec.zero_shiftLeft, BitVec.zero_or, BitVec.toNat_ofInt]
  omega

/-- The statuses that come through: all that are not negative, and of the negative ones those
whose last 16 bits are clear or `0x7f80`. -/
def FitsReturnCode (status : Int) : Prop :=
  0 ≤ status ∨ status % 65536 = 0 ∨ status % 65536 = 0x7f80

/-- Of the word `m` of a negative status, only the last 16 bits are looked at. -/
theorem negated_status_iff {m : Nat} (hm : m < 65536) :
    (m % 128 = 0 ∧ ((m / 256 : Nat) : Int) = -(m : Int) % 256) ↔
      (-(m : Int) % 65536 = 0 ∨ -(m : Int) % 65536 = 0x7f80) := by
  constructor
  · rintro ⟨hlow, hcode⟩
    obtain ⟨q, rfl⟩ : ∃ q, m = 128 * q := ⟨m / 128, by omega⟩
    rcases Nat.even_or_odd' q with ⟨p, rfl | rfl⟩ <;> omega
  · rintro (hzero | hone) <;> omega

theorem exitWord_reports_iff {status : Int} :
    ReportsExit status (exitWord status) ↔ FitsReturnCode status := by
  rw [reportsExit_iff, FitsReturnCode]
  by_cases h : 0 ≤ status
  · have hword := exitWord_of_nonneg h
    omega
  · have hword := exitWord_of_neg (not_le.mp h)
    generalize (exitWord status).toNat = w at hword
    have hlast : ((w % 65536 : Nat) : Int) = -status % 65536 := by omega
    have hseven : w % 128 = w % 65536 % 128 := by omega
    have hcode : w / 256 % 256 = w % 65536 / 256 := by omega
    have height : status % 256 = -((w % 65536 : Nat) : Int) % 256 := by omega
    have hall : status % 65536 = -((w % 65536 : Nat) : Int) % 65536 := by omega
    rw [or_iff_right h, hseven, hcode, height, hall]
    exact negated_status_iff (Nat.mod_lt w (by decide))

theorem exitWord_signal {sig : Nat} (hpos : 1 ≤ sig) (hsig : sig ≤ 31) :
    ReportsSignal sig (exitWord (-sig)) := by
  have hword := exitWord_of_neg (show (-sig : Int) < 0 by omega)
  exact reportsSignal_of_toNat hpos hsig (by omega)

/-- The argument of `exit` in `deliver_signals`, if a signal ends the task. -/
def signalEnd (x : Task) : Option Int :=
  if deliverable x = 0#32 ∨ x.inSignal = true then none
  else (deliverLoop (deliverable x) 31 0 x).2

/-- The argument of `exit` is the negative of a deliverable signal that ends the task. -/
theorem deliverLoop_end {set : BitVec 32} {n i : Nat} {x : Task} {ret : Int}
    (h : (deliverLoop set n i x).2 = some ret) : ∃ sig, i < sig ∧ sig ≤ i + n ∧
      signalDefaultActions sig = .terminate ∧ ret = -(sig : Int) := by
  induction n generalizing i x with
  | zero => cases h
  | succ n ih =>
      rw [deliverLoop] at h
      rcases hround : deliverSignal set i x with ⟨y, ret'⟩
      rw [hround] at h
      cases ret' with
      | none =>
          obtain ⟨sig, hlt, hle, hterm, hret⟩ := ih h
          exact ⟨sig, by omega, by omega, hterm, hret⟩
      | some ret' =>
          obtain rfl := Option.some.inj h
          rw [deliverSignal] at hround
          dsimp only at hround
          split at hround
          · cases hround
          split at hround
          · split at hround
            · rename_i hterm
              obtain ⟨-, hret⟩ := Prod.mk.inj hround
              refine ⟨i + 1, by omega, by omega, hterm, ?_⟩
              have hvalue := Option.some.inj hret
              omega
            · cases hround
          · cases hround
          · split at hround <;> cases hround

/-- `deliver_signals` ends the task. -/
theorem deliverSignals_of_end {ret : Int} (h : signalEnd k.currentTask = some ret) :
    ∃ p f g b, ∀ env fuel, deliverSignals env fuel k =
      exit env fuel (k.modifyCurrent (·.withSignals p f g b)) ret := by
  obtain ⟨p, f, g, b, htask⟩ := deliverLoop_task (deliverable k.currentTask) 31 0 k.currentTask
  refine ⟨p, f, g, b, fun env fuel => ?_⟩
  rw [signalEnd] at h
  split at h
  · cases h
  rename_i hgoes
  rw [not_or] at hgoes
  have hmod : (k.modifyCurrent fun _ => (deliverLoop (deliverable k.currentTask) 31 0
      k.currentTask).1) = k.modifyCurrent (·.withSignals p f g b) := by
    rw [htask]
    rfl
  rw [deliverSignals]
  dsimp only
  rw [← deliverable, if_neg hgoes.1, if_neg hgoes.2, hmod, h]

/-- How a process ends: a status that it passes to `exit`, or a signal. -/
inductive Ending where
  | exited (status : Int)
  | killed (sig : Nat)
deriving Repr, DecidableEq

/-- The argument of `exit`. -/
def Ending.code : Ending → Int
  | .exited status => status
  | .killed sig => -sig

/-- The current task ends in `k`, which leaves `k'`. -/
def Ending.Happens (k k' : Kernel) : Ending → Prop
  | .exited status => ∃ env fuel, exit env fuel k status = .ok k'
  | .killed sig => signalEnd k.currentTask = some (-(sig : Int)) ∧
      ∃ env fuel, deliverSignals env fuel k = .ok k'

/-- The word tells how the process ended. -/
def Ending.Reported (word : BitVec 32) : Ending → Prop
  | .exited status => ReportsExit status word
  | .killed sig => ReportsSignal sig word

/-- The return code holds the ending. -/
def Ending.Fits : Ending → Prop
  | .exited status => FitsReturnCode status
  | .killed _ => True

theorem Ending.Happens.exited {ending : Ending} (h : ending.Happens k k') :
    Exited k ending.code k' := by
  cases ending with
  | exited status =>
      obtain ⟨env, fuel, hexit⟩ := h
      exact exit_exited hexit
  | killed sig =>
      obtain ⟨hend, env, fuel, hdeliver⟩ := h
      obtain ⟨p, f, g, b, hcall⟩ := deliverSignals_of_end hend
      rw [hcall] at hdeliver
      have hdone := exit_exited hdeliver
      exact ⟨hdone.current, hdone.switching, hdone.state, hdone.returnCode⟩

theorem Ending.exitWord_reported_iff {ending : Ending} (h : ending.Happens k k') :
    ending.Reported (exitWord ending.code) ↔ ending.Fits := by
  cases ending with
  | exited status => exact exitWord_reports_iff
  | killed sig =>
      refine iff_of_true ?_ trivial
      obtain ⟨hend, -⟩ := h
      rw [signalEnd] at hend
      split at hend
      · cases hend
      obtain ⟨sig', hpos, hle, -, hsig⟩ := deliverLoop_end hend
      obtain rfl : sig = sig' := by omega
      exact exitWord_signal hpos hle

/-- A call of `waitpid` stores the word for the child `t`, which has terminated: at once, or
from `check_blocked_tasks`, after the tasks before the caller. -/
inductive WaitStores (k : Kernel) (t : Nat) : BitVec 32 → Prop
  | atOnce {fuel addr : Nat} {pid ret : Int} {options : BitVec 32} {k' : Kernel}
      (h : waitpid fuel (enterSyscall k 53) pid (some addr) options =
        .ok (.returned ret (some (t, .terminated)), k')) :
      WaitStores k t (k'.userInts (enterSyscall k 53).currentTask.cr3 addr)
  | blocked {fuel addr u : Nat} {reduceTicks : Bool} {before : List Nat}
      {reports : List (Nat × WaitEvent)} {k₁ k' : Kernel}
      (hbefore : checkBlockedLoop fuel reduceTicks before k = .ok (reports, k₁))
      (haddr : (k₁.tasks u).wstatus = some addr)
      (h : checkBlockedTask fuel reduceTicks k₁ u = .ok (some (t, .terminated), k')) :
      WaitStores k t (k'.userInts (k₁.tasks u).cr3 addr)

theorem unblock_userInts (k : Kernel) (t : Nat) (rax : Int) :
    (unblock k t rax).userInts = k.userInts := rfl

/-- The word that `check_blocked_tasks` stores for a terminated child. -/
theorem checkBlockedTask_terminated {fuel addr u : Nat} {reduceTicks : Bool}
    (haddr : (k.tasks u).wstatus = some addr)
    (h : checkBlockedTask fuel reduceTicks k u = .ok (some (t, .terminated), k')) :
    (k.tasks t).state = .zombie ∧
      k'.userInts (k.tasks u).cr3 addr = exitWord (k.tasks t).returnCode := by
  rw [checkBlockedTask] at h
  split at h
  · cases h
  split at h
  · cases h
  · cases h
  split at h
  · rw [checkWaitChild] at h
    dsimp only at h
    split at h
    · rename_i event hevent
      obtain ⟨hreport, rfl⟩ := Prod.mk.inj (Except.ok.inj h)
      obtain ⟨rfl, rfl⟩ := Prod.mk.inj (Option.some.inj hreport)
      refine ⟨waitEvent_zombie hevent, ?_⟩
      rw [haddr, Kernel.modifyTask, unblock_userInts, consumeEvent_userInts, storeStatus_word]
      rfl
    · split at h <;> cases h
  · rw [checkWaitAny] at h
    dsimp only at h
    rw [bind_ok_iff] at h
    obtain ⟨target, -, h⟩ := h
    split at h
    · cases h
    split at h
    · cases h
    rename_i event hevent
    obtain ⟨hreport, rfl⟩ := Prod.mk.inj (Except.ok.inj h)
    obtain ⟨rfl, rfl⟩ := Prod.mk.inj (Option.some.inj hreport)
    refine ⟨waitEvent_zombie hevent, ?_⟩
    rw [unblock_userInts, haddr, if_neg (by simp), consumeEvent_userInts, storeStatus_word]
    rfl

theorem waitpid_terminated {fuel addr : Nat} {pid ret : Int} {options : BitVec 32}
    (h : waitpid fuel k pid (some addr) options =
      .ok (.returned ret (some (t, .terminated)), k')) :
    (k.tasks t).state = .zombie ∧
      k'.userInts k.currentTask.cr3 addr = exitWord (k.tasks t).returnCode := by
  rcases waitpid_ok h with ⟨_, -, hr, -⟩ | ⟨child, event, -, hevent, hr, rfl⟩ | ⟨hr, -⟩
  · cases hr
  · obtain ⟨-, hreport⟩ := WaitResult.returned.inj hr
    obtain ⟨rfl, rfl⟩ := Prod.mk.inj (Option.some.inj hreport)
    refine ⟨waitEvent_zombie hevent, ?_⟩
    rw [consumeEvent_userInts, storeStatus_word]
    rfl
  · cases hr

/-- If the child terminated with a certain code, that is the code whose word is stored. -/
theorem WaitStores.eq_exitWord {code : Int} (h : WaitStores k t word)
    (hcode : (k.tasks t).state = .zombie → (k.tasks t).returnCode = code) :
    word = exitWord code := by
  have hlater : ∀ {k' : Kernel}, Alike k k' → (k'.tasks t).state = .zombie →
      (k'.tasks t).returnCode = code := by
    intro k' ha hzombie
    obtain ⟨hz, hsame⟩ := (ha t).zombie hzombie
    exact hsame.trans (hcode hz)
  cases h with
  | atOnce h =>
      obtain ⟨hzombie, hword⟩ := waitpid_terminated h
      rw [hword, hlater (.of_calm (.enterSyscall k 53)) hzombie]
  | blocked hbefore haddr h =>
      obtain ⟨hzombie, hword⟩ := checkBlockedTask_terminated haddr h
      rw [hword, hlater (.of_calm (.of_waitOnly (.checkBlockedLoop hbefore)
        (checkBlockedLoop_life hbefore))) hzombie]

/-- A step after which `t` is not the task that runs. -/
def AwayStep (t : Nat) (k : Kernel) (op : SignalOp) (k' : Kernel) : Prop :=
  KernelStep k op k' ∧ k'.current ≠ t

/-- As long as a task does not run, no one changes how it ended. -/
theorem code_invariant (t : Nat) (code : Int) : TaskInvariant (· ≠ t) fun u x =>
    u = t → x.state = .zombie → x.returnCode = code where
  alike := fun h ha hu hzombie => (ha.zombie hzombie).2.trans (h hu (ha.zombie hzombie).1)
  copy := fun _ _ hstate _ hzombie => absurd hzombie hstate
  sigaction := fun _ _ _ h => h
  sigprocmask := fun _ h => h
  exit := fun _ hne _ hu => absurd hu hne

/-- The word that `waitpid` stores tells how the child ended, if and only if the child was
ended by a signal or with a status that the return code can hold. -/
theorem exit_status_survives_iff {ending : Ending} {ops : List SignalOp}
    (hend : ending.Happens k k₁) (hrun : Run (AwayStep k.current) k₁ ops k₂)
    (hstores : WaitStores k₂ k.current word) : ending.Reported word ↔ ending.Fits := by
  have hexited := hend.exited
  have hstart : Holds (fun u x => u = k.current → x.state = .zombie →
      x.returnCode = ending.code) k₁ := by
    rintro u rfl -
    exact hexited.returnCode
  have hkept := (code_invariant k.current ending.code).run hstart hrun
  rw [hstores.eq_exitWord (hkept k.current rfl)]
  exact ending.exitWord_reported_iff hend

/-- The first program forks, the child exits with `status`, and the first program waits for
it. -/
def ExitWaited (status : Int) (word : BitVec 32) : Prop :=
  ∃ k ∈ runOps 8 (fun _ => true) childRuns (bootKernel smallBoot),
    ∃ k₁ ∈ (exit closes 8 (enterSyscall k 0) status).toOption,
      ∃ k₂ ∈ runOps 8 (fun _ => true) [.switchTask closes] k₁,
        ∃ r ∈ (waitpid 8 (enterSyscall k₂ 53) 2 (some 0x1000) 0#32).toOption,
          k.current = 2 ∧ k₂.current ≠ 2 ∧ r.1 = .returned 2 (some (2, .terminated)) ∧
            r.2.userInts (enterSyscall k₂ 53).currentTask.cr3 0x1000 = word

theorem mem_toOption {α : Type} {x : Except Stop α} {a : α} (h : a ∈ x.toOption) :
    x = .ok a := by
  cases x with
  | error stop => cases h
  | ok b => rw [Option.some.inj h]

theorem ExitWaited.run {status : Int} (h : ExitWaited status word) : ∃ k k₁ k₂,
    Run Step (bootKernel smallBoot) childRuns k ∧ (enterSyscall k 0).current = 2 ∧
      exit closes 8 (enterSyscall k 0) status = .ok k₁ ∧
      Run (AwayStep 2) k₁ [.sys (.switchTask closes)] k₂ ∧ WaitStores k₂ 2 word := by
  obtain ⟨k, hk, k₁, hk₁, k₂, hk₂, ⟨r, k₃⟩, hk₃, hcurrent, haway, rfl, rfl⟩ := h
  have hstep : Step k₁ (.switchTask closes) k₂ :=
    ((runOps_run hk₂).mono fun _ _ _ hstep => hstep.2).of_single
  obtain ⟨henabled, fuel, reports, hop⟩ := hstep
  refine ⟨k, k₁, k₂, (runOps_run hk).mono fun _ _ _ hstep => hstep.2, hcurrent, mem_toOption hk₁,
    .single ⟨⟨henabled, fuel, ?_⟩, haway⟩, .atOnce (mem_toOption hk₃)⟩
  rw [SignalOp.run, hop]
  rfl

set_option maxRecDepth 2000 in
/-- The status 3 comes through. -/
theorem exit_status_survives_three :
    (Ending.exited 3).Reported 0x300#32 ↔ (Ending.exited 3).Fits := by
  have hwaited : ExitWaited 3 0x300#32 := by
    unfold ExitWaited
    decide +kernel
  obtain ⟨k, k₁, k₂, -, hcurrent, hexit, hrun, hstores⟩ := hwaited.run
  rw [← hcurrent] at hrun hstores
  exact exit_status_survives_iff ⟨closes, 8, hexit⟩ hrun hstores

set_option maxRecDepth 2000 in
/-- A child that exits with the status -1 is reported as ended by signal 1. -/
theorem negative_status_is_signal : ∃ k k₁ k₂,
    Run Step (bootKernel smallBoot) childRuns k ∧ (enterSyscall k 0).current = 2 ∧
      exit closes 8 (enterSyscall k 0) (-1) = .ok k₁ ∧
      Run (AwayStep 2) k₁ [.sys (.switchTask closes)] k₂ ∧ WaitStores k₂ 2 1#32 ∧
      ¬ReportsExit (-1) 1#32 ∧ ReportsSignal 1 1#32 := by
  have hwaited : ExitWaited (-1) 1#32 := by
    unfold ExitWaited
    decide +kernel
  obtain ⟨k, k₁, k₂, hstart, hcurrent, hexit, hrun, hstores⟩ := hwaited.run
  refine ⟨k, k₁, k₂, hstart, hcurrent, hexit, hrun, hstores, ?_, ?_⟩
  · intro h
    exact absurd h.exited (by decide)
  · exact reportsSignal_of_toNat (by decide) (by decide) rfl

end GlitchedOS
