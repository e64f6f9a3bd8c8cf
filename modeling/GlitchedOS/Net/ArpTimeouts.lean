/-
How long an attempt of `arp_request` waits.  The time it began is kept as `int`, and the
difference to the uptime is taken in 64 bits; they agree while the uptime is the extension
of its low half by the sign.
-/
import GlitchedOS.Net.ArpWaits

namespace GlitchedOS

namespace ArpPc

/-- The task waits for the reply to attempt `i`. -/
def InAttempt (i : Nat) : ArpPc → Prop
  | .waitTest j _ | .signalTest j _ => j = i
  | _ => False

/-- Attempt `i` has begun at `startTime` and is not over, or the task has gone on from it. -/
def Since (i : Nat) (startTime : BitVec 32) : ArpPc → Prop
  | .waitTest j begun | .signalTest j begun => j = i ∧ begun = startTime ∨ i < j
  | .brokeTest j => i ≤ j
  | .send j => i < j
  | .idle | .lookFirst _ | .setWaiting => False
  | .finalTest | .interrupted | .timedOut | .lookLast _ | .returned _ => True

end ArpPc

namespace ArpState

variable (cards : NetCards)

/-- Task `t` reads uptimes that do not decrease from `last` on, finds no signal pending, and
does not call `arp_request` again. -/
def Timely (t : Nat) : BitVec 64 → List ArpEvent → Prop
  | _, [] => True
  | last, .run u uptime signal :: rest =>
      if u = t then last ≤ uptime ∧ signal = false ∧ Timely t uptime rest
      else Timely t last rest
  | last, .call u _ _ _ :: rest => u ≠ t ∧ Timely t last rest
  | last, .receive _ _ :: rest => Timely t last rest

/-- The event is the test of the loop in which task `t` waits, at this uptime. -/
def Tests (s : ArpState) (t : Nat) (uptime : BitVec 64) (event : ArpEvent) : Prop :=
  event = .run t uptime false ∧ ∃ i startTime, (s.tasks t).pc = .waitTest i startTime

/-- An attempt that begins at `start` waits on until a test finds the flag cleared or 1000 ms
gone by, and not longer. -/
def KeepsTime (start : BitVec 64) : Prop :=
  ∀ (s : ArpState) (t i : Nat) (events : List ArpEvent) (event : ArpEvent), i < 3 →
    (s.tasks t).pc = .send i → Timely t start (events ++ [event]) →
    let s' := events.foldl (step cards) (s.step cards (.run t start false))
    (s'.tasks t).pc.InAttempt i →
      (((s'.step cards event).tasks t).pc.InAttempt i ↔
        ∀ uptime, s'.Tests t uptime event →
          s'.waitingForReply = true ∧ uptime.toNat < start.toNat + 1000)

end ArpState

/-- A time that is kept as `int` without loss. -/
def fitsInt (time : BitVec 64) : Prop :=
  time.toNat < 2 ^ 31 ∨ 2 ^ 64 - 2 ^ 31 ≤ time.toNat

theorem signExtend_setWidth_toNat (time : BitVec 64) :
    ((time.setWidth 32).signExtend 64).toNat = time.toNat % 2 ^ 32 +
      if 2 ^ 31 ≤ time.toNat % 2 ^ 32 then 2 ^ 64 - 2 ^ 32 else 0 := by
  have hlow : (time.setWidth 32).toNat = time.toNat % 2 ^ 32 := BitVec.toNat_setWidth 32 time
  rw [BitVec.toNat_signExtend, BitVec.toNat_setWidth, BitVec.msb_eq_decide, hlow]
  rw [Nat.mod_eq_of_lt (a := time.toNat % 2 ^ 32) (by omega)]
  simp only [decide_eq_true_eq, Nat.add_one_sub_one]

theorem elapsed_iff {start uptime : BitVec 64} (hfits : fitsInt start) (hle : start ≤ uptime) :
    uptime - (start.setWidth 32).signExtend 64 < 1000 ↔ uptime.toNat < start.toNat + 1000 := by
  have hsame : (start.setWidth 32).signExtend 64 = start := by
    apply BitVec.eq_of_toNat_eq
    rw [signExtend_setWidth_toNat]
    have hlt := start.isLt
    unfold fitsInt at hfits
    split <;> omega
  rw [hsame, BitVec.lt_def, BitVec.toNat_sub_of_le hle]
  rw [BitVec.le_def] at hle
  change _ < 1000 ↔ _
  omega

/-- A time that does not fit seems to be long gone at once. -/
theorem elapsed_at_once {start : BitVec 64} (hfits : ¬fitsInt start) :
    ¬start - (start.setWidth 32).signExtend 64 < 1000 := by
  have hlow := signExtend_setWidth_toNat start
  have hlt := start.isLt
  rw [BitVec.lt_def, BitVec.toNat_sub, hlow]
  change ¬_ < 1000
  unfold fitsInt at hfits
  split <;> omega

namespace ArpState

variable {cards : NetCards} {s : ArpState} {t i : Nat} {start uptime : BitVec 64}
  {events : List ArpEvent}

/-- An event that is not a step of task `t`. -/
def Foreign (t : Nat) : ArpEvent → Prop
  | .run u _ _ => u ≠ t
  | .call u _ _ _ => u ≠ t
  | .receive _ _ => True

@[simp] theorem goto_pc (s : ArpState) (t : Nat) (pc : ArpPc) :
    ((s.goto t pc).tasks t).pc = pc := by
  simp [goto, ArpState.setTask]

theorem goto_other {u : Nat} (pc : ArpPc) (h : u ≠ t) : (s.goto u pc).tasks t = s.tasks t :=
  Function.update_of_ne h.symm _ _

theorem look_other {u j : Nat} (next : ArpPc) (h : u ≠ t) :
    (s.look u j next).tasks t = s.tasks t := by
  unfold look
  dsimp only
  split
  · exact Function.update_of_ne h.symm _ _
  · exact goto_other next h

theorem step_foreign {event : ArpEvent} (h : Foreign t event) :
    (s.step cards event).tasks t = s.tasks t := by
  cases event with
  | call u targetIp targetMacBuffer card => exact Function.update_of_ne (Ne.symm h) _ _
  | receive request card =>
      have hinsert := congrFun (s.insert_tasks request.senderIp request.senderMac) t
      rw [step]
      unfold arpReply
      dsimp only
      by_cases haccepts : s.Accepts cards request card
      · simp only [if_pos haccepts]
        generalize s.insert request.senderIp request.senderMac = filled at hinsert ⊢
        split
        · exact hinsert
        split <;> exact hinsert
      · simp only [if_neg haccepts]
        split
        · rfl
        split <;> rfl
  | run u uptime signal =>
      rw [step]
      unfold arpRequest
      dsimp only
      cases (s.tasks u).pc with
      | idle | returned ret => rfl
      | lookFirst j | lookLast j =>
          dsimp only
          split
          · exact look_other _ h
          · first | exact goto_other _ h | exact Function.update_of_ne (Ne.symm h) _ _
      | send j =>
          dsimp only
          split
          · split <;> exact goto_other _ h
          · exact goto_other _ h
      | waitTest j startTime | signalTest j startTime =>
          dsimp only
          split <;> exact goto_other _ h
      | brokeTest j | finalTest =>
          dsimp only
          split <;> exact goto_other _ h
      | setWaiting | interrupted | timedOut => exact goto_other _ h

theorem since_run {startTime : BitVec 32} (h : (s.tasks t).pc.Since i startTime)
    (uptime : BitVec 64) :
    ((s.step cards (.run t uptime false)).tasks t).pc.Since i startTime := by
  rw [step]
  unfold arpRequest
  dsimp only
  cases hpc : (s.tasks t).pc with
  | idle | lookFirst j | setWaiting =>
      rw [hpc] at h
      exact h.elim
  | returned ret =>
      dsimp only
      rw [hpc]
      trivial
  | send j =>
      rw [hpc] at h
      dsimp only
      split
      · rw [if_neg (by decide), goto_pc]
        exact .inr h
      · rw [goto_pc]
        trivial
  | waitTest j begun =>
      rw [hpc] at h
      dsimp only
      split
      · rw [goto_pc]
        exact h
      · rw [goto_pc]
        exact h.elim (fun h => Nat.le_of_eq h.1.symm) Nat.le_of_lt
  | signalTest j begun =>
      rw [hpc] at h
      dsimp only
      rw [if_neg (by decide), goto_pc]
      exact h
  | brokeTest j =>
      rw [hpc] at h
      dsimp only
      split
      · rw [goto_pc]
        exact Nat.lt_succ_of_le h
      · rw [goto_pc]
        trivial
  | finalTest =>
      dsimp only
      split <;> rw [goto_pc] <;> trivial
  | interrupted | timedOut =>
      dsimp only
      rw [goto_pc]
      trivial
  | lookLast j =>
      dsimp only
      split
      · unfold look
        dsimp only
        split
        · simp [ArpState.setTask, ArpPc.Since]
        · rw [goto_pc]
          trivial
      · simp [ArpState.setTask, ArpPc.Since]

theorem since_foreign {event : ArpEvent} {startTime : BitVec 32} (hforeign : Foreign t event)
    (h : (s.tasks t).pc.Since i startTime) :
    ((s.step cards event).tasks t).pc.Since i startTime := by
  rw [step_foreign hforeign]
  exact h

theorem Timely.to_last {event : ArpEvent} {last : BitVec 64}
    (h : Timely t last (events ++ [event]))
    {startTime : BitVec 32} (hsince : (s.tasks t).pc.Since i startTime) :
    ((events.foldl (step cards) s).tasks t).pc.Since i startTime ∧
      (Foreign t event ∨ ∃ uptime, last ≤ uptime ∧ event = .run t uptime false) := by
  induction events generalizing last s with
  | nil =>
      refine ⟨hsince, ?_⟩
      cases event with
      | call u _ _ _ => exact .inl h.1
      | receive _ _ => exact .inl trivial
      | run u uptime signal =>
          by_cases hu : u = t
          · subst hu
            rw [List.nil_append, Timely, if_pos rfl] at h
            obtain ⟨hle, rfl, -⟩ := h
            exact .inr ⟨uptime, hle, rfl⟩
          · exact .inl hu
  | cons first rest ih =>
      rw [List.cons_append] at h
      cases first with
      | call u _ _ _ => exact ih h.2 (since_foreign h.1 hsince)
      | receive request card =>
          have hforeign : Foreign t (.receive request card) := trivial
          exact ih h (since_foreign hforeign hsince)
      | run u uptime signal =>
          rw [Timely] at h
          split at h
          · rename_i hu
            subst hu
            obtain ⟨hle, rfl, h⟩ := h
            obtain ⟨hend, hlast⟩ := ih h (since_run hsince uptime)
            exact ⟨hend, hlast.imp_right fun ⟨later, hlater, heq⟩ =>
              ⟨later, BitVec.le_trans hle hlater, heq⟩⟩
          · rename_i hu
            have hforeign : Foreign t (.run u uptime signal) := hu
            exact ih h (since_foreign hforeign hsince)

/-- An attempt under way: one event later it goes on, unless the event is a test that is over. -/
theorem inAttempt_step {event : ArpEvent} {startTime : BitVec 32}
    (hin : (s.tasks t).pc.InAttempt i) (hsince : (s.tasks t).pc.Since i startTime)
    (hevent : Foreign t event ∨ ∃ uptime, event = .run t uptime false) :
    ((s.step cards event).tasks t).pc.InAttempt i ↔
      ∀ uptime, s.Tests t uptime event →
        s.waitingForReply = true ∧ uptime - startTime.signExtend 64 < 1000 := by
  rcases hevent with hforeign | ⟨uptime, rfl⟩
  · rw [step_foreign hforeign]
    refine iff_of_true hin fun uptime htests => ?_
    rw [htests.1] at hforeign
    exact absurd rfl hforeign
  · cases hpc : (s.tasks t).pc with
    | waitTest j begun =>
        rw [hpc] at hin hsince
        obtain rfl : j = i := hin
        obtain rfl : begun = startTime := by
          rcases hsince with ⟨-, h⟩ | h
          · exact h
          · exact absurd h (Nat.lt_irrefl _)
        have htests : ∀ time, s.Tests t time (.run t uptime false) ↔ uptime = time := by
          intro time
          refine ⟨fun h => (ArpEvent.run.inj h.1).2.1, ?_⟩
          rintro rfl
          exact ⟨rfl, _, _, hpc⟩
        simp only [htests, forall_eq']
        rw [step]
        unfold arpRequest
        simp only [hpc]
        split
        · rename_i h
          rw [goto_pc]
          exact iff_of_true rfl h
        · rename_i h
          rw [goto_pc]
          exact iff_of_false id h
    | signalTest j begun =>
        rw [hpc] at hin
        have hnext : ((s.step cards (.run t uptime false)).tasks t).pc = .waitTest j begun := by
          rw [step]
          unfold arpRequest
          simp [hpc]
        rw [hnext]
        refine iff_of_true hin ?_
        rintro time ⟨-, k, time', htest⟩
        cases hpc.symm.trans htest
    | idle | lookFirst _ | setWaiting | send _ | brokeTest _ | finalTest | interrupted
    | timedOut | lookLast _ | returned _ =>
        rw [hpc] at hin
        exact hin.elim

theorem begin_attempt (hi : i < 3) (hpc : (s.tasks t).pc = .send i) (start : BitVec 64) :
    ((s.step cards (.run t start false)).tasks t).pc = .waitTest i (start.setWidth 32) ∧
      (s.step cards (.run t start false)).waitingForReply = s.waitingForReply := by
  rw [step]
  unfold arpRequest
  simp only [hpc, if_pos hi]
  rw [if_neg (by decide)]
  exact ⟨goto_pc _ _ _, rfl⟩

end ArpState

/-- An attempt that begins at a time that does not fit is over at its first test. -/
theorem not_keepsTime {cards : NetCards} {start : BitVec 64} (hfits : ¬fitsInt start) :
    ¬ArpState.KeepsTime cards start := by
  intro hkeeps
  obtain ⟨s, hpc, hflag⟩ : ∃ s : ArpState, (s.tasks 0).pc = .send 0 ∧
      s.waitingForReply = true :=
    ⟨{ ArpState.start.goto 0 (.send 0) with waitingForReply := true }, by simp, rfl⟩
  have hsame : (s.step cards (.run 0 start false)).waitingForReply = s.waitingForReply :=
    (ArpState.begin_attempt (by decide) hpc start).2
  have hbegun : ((s.step cards (.run 0 start false)).tasks 0).pc =
      .waitTest 0 (start.setWidth 32) := (ArpState.begin_attempt (by decide) hpc start).1
  have hin : ((s.step cards (.run 0 start false)).tasks 0).pc.InAttempt 0 := by
    rw [hbegun]
    rfl
  have htimely : ArpState.Timely 0 start ([] ++ [.run 0 start false]) := by
    rw [List.nil_append, ArpState.Timely, if_pos rfl]
    exact ⟨BitVec.le_refl start, rfl, trivial⟩
  have hon := (hkeeps s 0 0 [] (.run 0 start false) (by decide) hpc htimely hin).mpr (by
    intro uptime htests
    obtain rfl := (ArpEvent.run.inj htests.1).2.1
    exact ⟨hsame.trans hflag, by omega⟩)
  have hsince : ((s.step cards (.run 0 start false)).tasks 0).pc.Since 0
      (start.setWidth 32) := by
    rw [hbegun]
    exact .inl ⟨rfl, rfl⟩
  have htest := (ArpState.inAttempt_step hin hsince (.inr ⟨start, rfl⟩)).mp hon start
    ⟨rfl, _, _, hbegun⟩
  exact elapsed_at_once hfits htest.2

/-- An attempt of `arp_request` keeps its time exactly when it begins at an uptime that fits
an `int`: before 2^31 ms, or in the last 2^31 ms. -/
theorem arp_attempt_keeps_time_iff (cards : NetCards) (start : BitVec 64) :
    ArpState.KeepsTime cards start ↔ fitsInt start := by
  refine ⟨fun hkeeps => by_contra fun hfits => not_keepsTime hfits hkeeps, ?_⟩
  intro hfits s t i events event hi hpc htimely s' hin
  have hbegun : ((s.step cards (.run t start false)).tasks t).pc =
      .waitTest i (start.setWidth 32) := (ArpState.begin_attempt hi hpc start).1
  have hsince : ((s.step cards (.run t start false)).tasks t).pc.Since i
      (start.setWidth 32) := by
    rw [hbegun]
    exact .inl ⟨rfl, rfl⟩
  obtain ⟨hsince', hevent⟩ := htimely.to_last hsince
  rw [ArpState.inAttempt_step hin hsince' (hevent.imp_right fun ⟨u, _, h⟩ => ⟨u, h⟩)]
  refine forall_congr' fun uptime => imp_congr_right fun htests => and_congr_right fun _ => ?_
  refine elapsed_iff hfits ?_
  rcases hevent with hforeign | ⟨u, hle, heq⟩
  · rw [htests.1] at hforeign
    exact absurd rfl hforeign
  · obtain rfl := (ArpEvent.run.inj (htests.1.symm.trans heq)).2.1
    exact hle

def firstAttempt : ArpState := { ArpState.start.goto 0 (.send 0) with waitingForReply := true }

/-- 2^31 ms after boot an attempt is over at once, with the flag still set. -/
theorem arp_attempt_cut_short :
    (firstAttempt.tasks 0).pc = .send 0 ∧ firstAttempt.waitingForReply = true ∧
      (([.run 0 0x80000000 false, .run 0 0x80000000 false].foldl (ArpState.step oneCard)
        firstAttempt).tasks 0).pc = .brokeTest 0 ∧
      ¬ArpState.KeepsTime oneCard 0x80000000 := by
  refine ⟨rfl, rfl, by decide, not_keepsTime ?_⟩
  rw [fitsInt]
  decide

end GlitchedOS
