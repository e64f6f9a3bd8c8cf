/-
`has_pending_signals` tells a blocking call that it is interrupted; `deliver_signals` acts on
the signals that interrupt it.  They differ about signals that stop a task and are left
pending, which `signal_task` leaves when the task is stopped already.
-/
import GlitchedOS.Process.SigKill

namespace GlitchedOS

/-- What `deliver_signals` does with the task. -/
def Task.delivery (x : Task) : List Nat × Context Unit × Option Int :=
  Context.deliverSignals ⟨x, zeroRegisters, (), zeroRegisters, ()⟩

/-- A delivery enters a handler or ends the task. -/
def ActsOn (r : List Nat × Context Unit × Option Int) : Prop := r.1 ≠ [] ∨ r.2.2 ≠ none

/-- A call of the task is interrupted exactly when `deliver_signals` acts on it. -/
def Task.Agrees (x : Task) : Prop := hasPendingSignals x = true ↔ ActsOn x.delivery

/-- No signal is pending that is to stop the task. -/
def Task.NoStop (x : Task) : Prop :=
  ∀ sig, signalDefaultActions sig = .stop → x.signalHandlers sig = .dfl → hasSignal sig x = false

section Delivery

variable {set : BitVec 32} {n i : Nat} {c : Context Unit} {x : Task}

/-- Signal `i + 1` of `set` is one that a delivery acts on. -/
def disturbedBy (set : BitVec 32) (x : Task) (i : Nat) : Bool :=
  set.getLsbD i && match x.signalHandlers (i + 1) with
    | .dfl => decide (signalDefaultActions (i + 1) = .terminate)
    | .ign => false
    | .user _ => true

theorem deliverSignal_cs (set : BitVec 32) (i : Nat) (x : Task) :
    (deliverSignal set i x).1.iframe.cs = x.iframe.cs := by
  rw [deliverSignal]
  dsimp only
  split
  · rfl
  split
  · split <;> rfl
  · rfl
  · split <;> rfl

theorem deliverSignal_actsOn (hcs : c.task.iframe.cs = userCs) :
    ActsOn (c.deliverSignal set i) ↔ disturbedBy set c.task i = true := by
  rw [Context.deliverSignal, GlitchedOS.deliverSignal, ActsOn]
  by_cases hbit : set.getLsbD i = true
  swap
  · simp [handles, hbit, disturbedBy]
  cases hhandler : c.task.signalHandlers (i + 1) with
  | dfl =>
      by_cases hterm : signalDefaultActions (i + 1) = .terminate
      · simp [handles, hbit, hhandler, hterm, disturbedBy]
      · simp [handles, hbit, hhandler, hterm, disturbedBy]
  | ign => simp [handles, hbit, hhandler, disturbedBy]
  | user addr => simp [handles, hbit, hhandler, hcs, disturbedBy]

/-- The rounds act on a signal exactly when there is one among theirs. -/
theorem deliverLoop_actsOn (hcs : c.task.iframe.cs = userCs) :
    ActsOn (c.deliverLoop set n i) ↔
      ∃ j, i ≤ j ∧ j < i + n ∧ disturbedBy set c.task j = true := by
  induction n generalizing i c with
  | zero =>
      have hnone : ¬ActsOn (c.deliverLoop set 0 i) := fun h =>
        h.elim (fun h => h rfl) fun h => h rfl
      refine ⟨fun h => absurd h hnone, ?_⟩
      rintro ⟨j, hle, hlt, -⟩
      omega
  | succ n ih =>
      have hround : ActsOn (c.deliverSignal set i) ↔ disturbedBy set c.task i = true :=
        deliverSignal_actsOn hcs
      have htask := (c.deliverSignal_task set i).1
      have hlater : ∀ j, disturbedBy set (c.deliverSignal set i).2.1.task j =
          disturbedBy set c.task j := by
        intro j
        obtain ⟨p, f, g, b, hkeep⟩ := deliverSignal_task set i c.task
        rw [htask, hkeep]
        rfl
      have hcs' : (c.deliverSignal set i).2.1.task.iframe.cs = userCs := by
        rw [htask, deliverSignal_cs]
        exact hcs
      rcases c.deliverLoop_succ set n i with ⟨ret, hret, heq⟩ | ⟨later, hret, hdone, heq⟩
      · rw [heq, hround]
        have hacts : disturbedBy set c.task i = true := hround.mp (.inr (by rw [hret]; simp))
        exact ⟨fun h => ⟨i, Nat.le_refl i, by omega, h⟩, fun _ => hacts⟩
      · rw [heq]
        have hrest := ih (i := i + 1) hcs'
        rw [hdone] at hrest
        simp only [hlater] at hrest
        have hsplit : ActsOn ((c.deliverSignal set i).1 ++ later.1, later.2) ↔
            ActsOn (c.deliverSignal set i) ∨ ActsOn later := by
          simp only [ActsOn, ne_eq, List.append_eq_nil_iff, hret, not_and_or]
          tauto
        rw [hsplit, hround, hrest]
        constructor
        · rintro (hhere | ⟨j, hle, hlt, hj⟩)
          · exact ⟨i, Nat.le_refl i, by omega, hhere⟩
          · exact ⟨j, by omega, by omega, hj⟩
        · rintro ⟨j, hle, hlt, hj⟩
          rcases Nat.eq_or_lt_of_le hle with rfl | hgt
          · exact .inl hj
          · exact .inr ⟨j, hgt, by omega, hj⟩

theorem delivery_actsOn (hout : x.inSignal = false) (hcs : x.iframe.cs = userCs) :
    ActsOn x.delivery ↔ ∃ i < 31, disturbs x i = true := by
  rw [Task.delivery, Context.deliverSignals]
  dsimp only
  split
  · rename_i hzero
    have hnone : ¬∃ i < 31, disturbs x i = true := by
      rintro ⟨i, -, hi⟩
      rw [disturbs, hzero, BitVec.getLsbD_zero, Bool.false_and] at hi
      cases hi
    exact ⟨fun h => h.elim (fun h => absurd rfl h) fun h => absurd rfl h, fun h => absurd h hnone⟩
  · rw [hout, if_neg Bool.false_ne_true, deliverLoop_actsOn hcs]
    constructor
    · rintro ⟨j, -, hlt, hj⟩
      exact ⟨j, by omega, hj⟩
    · rintro ⟨j, hlt, hj⟩
      exact ⟨j, Nat.zero_le j, by omega, hj⟩

theorem hasPendingSignals_iff (hout : x.inSignal = false) :
    hasPendingSignals x = true ↔
      ∃ i < 31, disturbs x i = true ∨ stopPending x i = true := by
  rw [hasPendingSignals_eq, hout, Bool.not_false, Bool.true_and, List.any_eq_true]
  simp only [List.mem_range, Bool.or_eq_true]

/-- The two functions agree about a task unless a signal that is to stop it is pending and no
other is there to be acted on. -/
theorem agrees_iff (hout : x.inSignal = false) (hcs : x.iframe.cs = userCs) :
    x.Agrees ↔ (∀ i < 31, stopPending x i = false) ∨ ∃ i < 31, disturbs x i = true := by
  rw [Task.Agrees, hasPendingSignals_iff hout, delivery_actsOn hout hcs]
  constructor
  · intro h
    by_cases hstop : ∃ i < 31, stopPending x i = true
    · obtain ⟨i, hi, hstop⟩ := hstop
      exact .inr (h.mp ⟨i, hi, .inr hstop⟩)
    · exact .inl fun i hi => by simpa using fun h => hstop ⟨i, hi, h⟩
  · rintro (hnone | hdisturbs)
    · refine ⟨?_, fun ⟨i, hi, h⟩ => ⟨i, hi, .inl h⟩⟩
      rintro ⟨i, hi, h | h⟩
      · exact ⟨i, hi, h⟩
      · rw [hnone i hi] at h
        cases h
    · exact ⟨fun _ => hdisturbs, fun ⟨i, hi, h⟩ => ⟨i, hi, .inl h⟩⟩

end Delivery

theorem stop_range {sig : Nat} (h : signalDefaultActions sig = .stop) : 19 ≤ sig ∧ sig ≤ 22 := by
  unfold signalDefaultActions at h
  split at h
  all_goals first | contradiction | omega

theorem Task.NoStop.stopPending {x : Task} (h : x.NoStop) {i : Nat} (hi : i < 31) :
    stopPending x i = false := by
  rw [← Bool.not_eq_true, GlitchedOS.stopPending]
  intro hstop
  rw [Bool.and_eq_true, Bool.and_eq_true, decide_eq_true_iff, decide_eq_true_iff,
    getLsbD_deliverable x (by omega), Bool.and_eq_true] at hstop
  obtain ⟨⟨⟨hpending, -⟩, hdfl⟩, haction⟩ := hstop
  have hnot := h (i + 1) haction hdfl
  rw [hasSignal, Nat.add_sub_cancel, hpending] at hnot
  cases hnot

end GlitchedOS
