/-
A child with an event, reported by `waitpid` at once or by `check_blocked_tasks` to a
caller that is blocked already.  The copies of the code agree but for one: a caller that
waits for any child is told of a stopped one with its own stop signal.
-/
import GlitchedOS.Process.TreeSteps

namespace GlitchedOS

variable {k k' k₁ k₂ : Kernel}
variable {event : WaitEvent} {options : BitVec 32} {fuel child addr : Nat}

/-- The caller has a list of children, and is not one of them. -/
def HasChildren (k : Kernel) : Prop :=
  ∃ kids, Segment (fun t => (k.tasks t).nextSibling) k.currentTask.child kids none ∧
    k.current ∉ kids

/-- The caller `t` gets the same from both ways: the value returned, the word at `addr`,
and the state and the event of the child. -/
structure SameReport (t child addr : Nat) (ret : Int) (k₁ k₂ : Kernel) : Prop where
  ret : (k₂.tasks t).iframe.rax = ret
  word : k₂.userInts (k₁.tasks t).cr3 addr = k₁.userInts (k₁.tasks t).cr3 addr
  state : (k₂.tasks child).state = (k₁.tasks child).state
  event : (k₂.tasks child).waitpidEvent = (k₁.tasks child).waitpidEvent

/-- The first child that `waitpid` looks at, if it is stopped, was stopped by the same
signal as the caller, or the caller waits for a certain child. -/
def StopWordsAgree (fuel : Nat) (k : Kernel) (pid : Int) (options : BitVec 32) : Prop :=
  0 < pid ∨ ∀ child,
    firstWaitpidTarget k options fuel k.currentTask.child = .ok (some child) →
    waitEvent (k.tasks child) options = some .stopped →
    wStopcode k.currentTask.stopSignal = wStopcode (k.tasks child).stopSignal

/-- The caller does not change what it sees of its children when it blocks. -/
theorem firstWaitpidTarget_congr {flags : BitVec 32} {n : Nat} {start : Option Nat}
    {kids : List Nat} (hkids : Segment (fun t => (k.tasks t).nextSibling) start kids none)
    (hsame : ∀ c ∈ kids, k'.tasks c = k.tasks c) :
    firstWaitpidTarget k' flags n start = firstWaitpidTarget k flags n start := by
  induction kids generalizing start n with
  | nil =>
      obtain rfl : start = none := hkids
      rw [firstWaitpidTarget, firstWaitpidTarget]
  | cons c kids ih =>
      obtain ⟨rfl, hrest⟩ := hkids
      cases n with
      | zero => rfl
      | succ n =>
          rw [firstWaitpidTarget, firstWaitpidTarget, hsame c List.mem_cons_self]
          rw [ih hrest fun d hd => hsame d (List.mem_cons_of_mem c hd)]

theorem consumeEvent_of_ne {u : Nat} (hne : u ≠ child) (event : WaitEvent) :
    (consumeEvent k child event).tasks u = k.tasks u := by
  cases event <;> simp [consumeEvent, Kernel.modifyTask_apply, hne]

theorem consumeEvent_pid (k : Kernel) (child u : Nat) (event : WaitEvent) :
    ((consumeEvent k child event).tasks u).pid = (k.tasks u).pid := by
  cases event <;> simp only [consumeEvent, Kernel.modifyTask_apply] <;> split <;> rfl

theorem consumeEvent_congr (hsame : k'.tasks child = k.tasks child) (event : WaitEvent) :
    (consumeEvent k' child event).tasks child = (consumeEvent k child event).tasks child := by
  cases event <;> simp [consumeEvent, hsame]

@[simp] theorem consumeEvent_userInts (k : Kernel) (child : Nat) (event : WaitEvent) :
    (consumeEvent k child event).userInts = k.userInts := by
  cases event <;> rfl

theorem storeStatus_word (k : Kernel) (cr3 addr : Nat) (word : BitVec 32) :
    (storeStatus k cr3 (some addr) word).userInts cr3 addr = word := by
  simp [storeStatus]

/-- Both ways store a word, take the event off and give the caller the number of the
child; so they agree when the words do. -/
theorem sameReport_iff {t cr3 : Nat} {word word' : BitVec 32}
    {ret : Int} (hne : t ≠ child) (hsame : k'.tasks child = k.tasks child)
    (hcr3 : (k.tasks t).cr3 = cr3) :
    SameReport t child addr ret
        (consumeEvent (storeStatus k cr3 (some addr) word) child event)
        (unblock (consumeEvent (storeStatus k' cr3 (some addr) word') child event) t ret) ↔
      word' = word := by
  have hcaller : ((consumeEvent (storeStatus k cr3 (some addr) word) child event).tasks t).cr3 =
      cr3 := by
    rw [consumeEvent_of_ne hne, storeStatus_tasks, hcr3]
  have hwords : (unblock (consumeEvent (storeStatus k' cr3 (some addr) word') child event) t
        ret).userInts cr3 addr =
      (consumeEvent (storeStatus k cr3 (some addr) word) child event).userInts cr3 addr ↔
        word' = word := by
    change (consumeEvent (storeStatus k' cr3 (some addr) word') child event).userInts cr3 addr =
      _ ↔ _
    rw [consumeEvent_userInts, consumeEvent_userInts, storeStatus_word, storeStatus_word]
  have hafter : (unblock (consumeEvent (storeStatus k' cr3 (some addr) word') child event) t
        ret).tasks child =
      (consumeEvent (storeStatus k cr3 (some addr) word) child event).tasks child := by
    rw [unblock, Kernel.modifyTask_apply, if_neg hne.symm]
    apply consumeEvent_congr
    rw [storeStatus_tasks, storeStatus_tasks, hsame]
  constructor
  · intro h
    have hword := h.word
    rw [hcaller] at hword
    exact hwords.mp hword
  · intro h
    refine ⟨?_, ?_, by rw [hafter], by rw [hafter]⟩
    · rw [unblock, Kernel.modifyTask_self]
    · rw [hcaller]
      exact hwords.mpr h

theorem SameReport.clear {t : Nat} {ret : Int} (hne : t ≠ child)
    (h : SameReport t child addr ret k₁ k₂) :
    SameReport t child addr ret k₁
      (k₂.modifyTask t fun x => { x with blockedProcess := none }) := by
  have hchild : (k₂.modifyTask t fun x => { x with blockedProcess := none }).tasks child =
      k₂.tasks child := by
    rw [Kernel.modifyTask_apply, if_neg hne.symm]
  refine ⟨?_, h.word, by rw [hchild]; exact h.state, by rw [hchild]; exact h.event⟩
  rw [Kernel.modifyTask_self]
  exact h.ret

/-- `blocked_process` of a caller that waits for `child` when it blocks. -/
def blockedProcess (pid : Int) (child : Nat) : Option Nat :=
  if 0 < pid then some child else none

theorem blockWaiting_of_ne {child wstatus : Option Nat} {u : Nat}
    (hne : u ≠ k.current) : (blockWaiting k child wstatus options).tasks u = k.tasks u := by
  rw [blockWaiting, Kernel.modifyCurrent, Kernel.modifyTask_apply, if_neg hne]

/-- `check_blocked_tasks` for a caller that waits for one child. -/
theorem checkBlockedTask_child
    (hne : k.current ≠ child) (hevent : waitEvent (k.tasks child) options = some event)
    (hlater : k'.tasks = (blockWaiting k (some child) (some addr) options).tasks)
    (reduceTicks : Bool) :
    checkBlockedTask fuel reduceTicks k' k.current =
      .ok (some (child, event), (unblock (consumeEvent (storeStatus k' k.currentTask.cr3
        (some addr) (eventWord (k.tasks child) event)) child event) k.current
          (k.tasks child).pid).modifyTask k.current fun x =>
            { x with blockedProcess := none }) := by
  have hcaller : k'.tasks k.current = (blockWaiting k (some child) (some addr)
      options).tasks k.current := congrFun hlater k.current
  rw [blockWaiting, Kernel.modifyCurrent, Kernel.modifyTask_self] at hcaller
  have hchild : k'.tasks child = k.tasks child := by
    rw [hlater, blockWaiting_of_ne hne.symm]
  rw [checkBlockedTask, hcaller]
  simp only [ne_eq, not_true_eq_false, if_false]
  rw [checkWaitChild, hcaller, hchild]
  simp only [hevent, consumeEvent_pid, storeStatus_tasks, hchild]
  rfl

/-- The word that `check_blocked_tasks` stores for a caller that waits for any child. -/
def anyChildWord (caller child : Task) (event : WaitEvent) : BitVec 32 :=
  match event with
  | .stopped => wStopcode caller.stopSignal
  | _ => eventWord child event

/-- A caller that waits for any child is told of the event that its child has. -/
theorem checkWaitAny_event {t : Nat}
    (hfound : firstWaitpidTarget k (k.tasks t).waitpidFlags fuel (k.tasks t).child =
      .ok (some child))
    (hevent : waitEvent (k.tasks child) (k.tasks t).waitpidFlags = some event)
    (hstatus : (k.tasks t).wstatus = some addr) :
    checkWaitAny fuel k t = .ok (some (child, event), unblock (consumeEvent
      (storeStatus k (k.tasks t).cr3 (some addr) (anyChildWord (k.tasks t) (k.tasks child) event))
        child event) t (k.tasks child).pid) := by
  rw [checkWaitAny, hfound]
  simp only [Except.bind, bind, hevent, hstatus, reduceCtorEq, and_false, if_false,
    consumeEvent_pid, storeStatus_tasks]
  rfl

theorem checkBlockedTask_any
    (hne : k.current ≠ child) (hevent : waitEvent (k.tasks child) options = some event)
    (hkids : HasChildren k)
    (htarget : firstWaitpidTarget k options fuel k.currentTask.child = .ok (some child))
    (hlater : k'.tasks = (blockWaiting k none (some addr) options).tasks) (reduceTicks : Bool) :
    checkBlockedTask fuel reduceTicks k' k.current =
      .ok (some (child, event), (unblock (consumeEvent (storeStatus k' k.currentTask.cr3
        (some addr) (anyChildWord k.currentTask (k.tasks child) event)) child event) k.current
          (k.tasks child).pid)) := by
  have hcaller : k'.tasks k.current = (blockWaiting k none (some addr) options).tasks k.current :=
    congrFun hlater k.current
  rw [blockWaiting, Kernel.modifyCurrent, Kernel.modifyTask_self] at hcaller
  have hchild : k'.tasks child = k.tasks child := by
    rw [hlater, blockWaiting_of_ne hne.symm]
  obtain ⟨kids, hsegment, hout⟩ := hkids
  have hfound : firstWaitpidTarget k' options fuel k.currentTask.child = .ok (some child) := by
    rw [firstWaitpidTarget_congr hsegment, htarget]
    intro c hc
    rw [hlater, blockWaiting_of_ne fun heq => hout (heq ▸ hc)]
  rw [checkBlockedTask, hcaller]
  simp only [ne_eq, not_true_eq_false, if_false]
  have htold := checkWaitAny_event (k := k') (t := k.current)
    (by rw [hcaller]; exact hfound) (by rw [hcaller, hchild]; exact hevent) (by rw [hcaller])
  rw [htold, hcaller, hchild]
  rfl

/-- The words are the same unless the caller stopped by another signal. -/
theorem anyChildWord_eq_iff {caller child : Task} :
    anyChildWord caller child event = eventWord child event ↔
      (event = .stopped → wStopcode caller.stopSignal = wStopcode child.stopSignal) := by
  cases event <;> simp [anyChildWord, eventWord]

/-- An event of a child is reported in the same way, at once and to a blocked caller,
exactly when the caller waits for a certain child or has the stop signal of the child
itself. -/
theorem waitpid_agrees_iff {fuel child addr : Nat} {pid ret : Int} {options : BitVec 32}
    {event : WaitEvent} {reduceTicks : Bool} (hkids : HasChildren k)
    (hnow : waitpid fuel k pid (some addr) options = .ok (.returned ret (some (child, event)), k₁))
    (hlater : k'.tasks =
      (blockWaiting k (blockedProcess pid child) (some addr) options).tasks) :
    (∃ report k₂, checkBlockedTask fuel reduceTicks k' k.current = .ok (report, k₂) ∧
      SameReport k.current child addr ret k₁ k₂) ↔ StopWordsAgree fuel k pid options := by
  have htold : WaitTarget fuel k pid options child ∧
      waitEvent (k.tasks child) options = some event ∧ ret = (k.tasks child).pid ∧
      k₁ = consumeEvent (storeStatus k k.currentTask.cr3 (some addr)
        (eventWord (k.tasks child) event)) child event := by
    rcases waitpid_ok hnow with ⟨_, -, hr, -⟩ | ⟨c, e, htarget, hevent, hr, hk⟩ | ⟨hr, -⟩
    · cases hr
    · obtain ⟨rfl, hreport⟩ := WaitResult.returned.inj hr
      obtain ⟨rfl, rfl⟩ := Prod.mk.inj (Option.some.inj hreport)
      exact ⟨htarget, hevent, rfl, hk⟩
    · cases hr
  obtain ⟨htarget, hevent, rfl, rfl⟩ := htold
  have hne : k.current ≠ child := by
    obtain ⟨kids, hsegment, hout⟩ := hkids
    rintro rfl
    rcases htarget with ⟨-, hget⟩ | ⟨-, hget⟩
    · exact hout (getChild_mem hsegment hget).1
    · exact hout (firstWaitpidTarget_mem hsegment hget)
  have hchild : k'.tasks child = k.tasks child := by
    rw [hlater, blockWaiting_of_ne hne.symm]
  rcases htarget with ⟨hpid, -⟩ | ⟨hpid, hfirst⟩
  · rw [blockedProcess, if_pos hpid] at hlater
    refine iff_of_true ⟨_, _, checkBlockedTask_child hne hevent hlater reduceTicks, ?_⟩ (.inl hpid)
    exact ((sameReport_iff hne hchild rfl).mpr rfl).clear hne
  · rw [blockedProcess, if_neg hpid] at hlater
    rw [StopWordsAgree, or_iff_right hpid,
      checkBlockedTask_any hne hevent hkids hfirst hlater reduceTicks]
    constructor
    · rintro ⟨report, k₂, hk, hreport⟩ c hc hstopped
      obtain ⟨-, rfl⟩ := Prod.mk.inj (Except.ok.inj hk)
      obtain rfl := Option.some.inj (Except.ok.inj (hfirst.symm.trans hc))
      have hword := (sameReport_iff hne hchild rfl).mp hreport
      exact anyChildWord_eq_iff.mp hword (Option.some.inj (hevent.symm.trans hstopped))
    · intro hagree
      refine ⟨_, _, rfl, (sameReport_iff hne hchild rfl).mpr (anyChildWord_eq_iff.mpr ?_)⟩
      rintro rfl
      exact hagree child hfirst hevent

/-- The first process, with a child that a `SIGSTOP` stopped. -/
def stoppedChild : Kernel :=
  { bootKernel smallBoot with
    tasks := fun t =>
      if t = 2 then
        { zeroTask with
          pid := 2, state := .stopped, stopSignal := sigStop, waitpidEvent := 1
          parent := some initTask }
      else { bootTasks smallBoot t with child := if t = initTask then some 2 else none } }

theorem stoppedChild_children : HasChildren stoppedChild :=
  ⟨[2], ⟨rfl, rfl⟩, by decide⟩

/-- The call for the child itself is the same in both ways. -/
theorem waitpid_agrees_child :
    (∃ report k₂, checkBlockedTask 2 true (blockWaiting stoppedChild (some 2) (some 0x1000)
        wuntraced) initTask = .ok (report, k₂) ∧
      SameReport initTask 2 0x1000 2 (consumeEvent (storeStatus stoppedChild 4 (some 0x1000)
        (wStopcode sigStop)) 2 .stopped) k₂) ↔ StopWordsAgree 2 stoppedChild 2 wuntraced :=
  waitpid_agrees_iff stoppedChild_children rfl rfl

/-- A caller that waits for any child is told at once that signal 19 stopped it, and that
signal 0 did when it is blocked. -/
theorem waitpid_blocked_disagrees : ∃ k₁ k₂,
    waitpid 2 stoppedChild (-1) (some 0x1000) wuntraced =
        .ok (.returned 2 (some (2, .stopped)), k₁) ∧
      checkBlockedTask 2 true (blockWaiting stoppedChild none (some 0x1000) wuntraced) initTask =
        .ok (some (2, .stopped), k₂) ∧
      k₁.userInts 4 0x1000 = 0x137f#32 ∧ k₂.userInts 4 0x1000 = 0x007f#32 ∧
      ¬ SameReport initTask 2 0x1000 2 k₁ k₂ := by
  refine ⟨_, _, rfl, rfl, rfl, rfl, fun hsame => ?_⟩
  exact absurd hsame.word (by decide)

end GlitchedOS
