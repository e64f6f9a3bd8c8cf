/-
Which task runs next.  `get_next_task` is a round robin over the task ring: `rr_task` is
the task served last, and the ring from the task after it on is the order in which the
others wait.
-/
import GlitchedOS.Lib.RoundRobin
import GlitchedOS.Lib.Run
import GlitchedOS.Process.Frame

namespace GlitchedOS

variable {k k' : Kernel} {ring order waiting : List Nat}

/-- `task->state == STATE_READY` -/
def Kernel.isReady (k : Kernel) (t : Nat) : Bool := decide ((k.tasks t).state = .ready)

def Kernel.ringPointer (k : Kernel) (t : Nat) : Nat := (k.tasks t).next

theorem nextLoop_succ {start rr a n : Nat} (hnext : k.ringPointer rr = a) :
    nextLoop k start (n + 1) rr =
      if k.isReady a then .ok (some a, a)
      else if a = start then .ok (none, a) else nextLoop k start n a := by
  rw [nextLoop, show (k.tasks rr).next = a from hnext, Kernel.isReady]
  simp only [decide_eq_true_eq]

/-- The loop finds the first ready task of those that wait, of which `start` is the last. -/
theorem nextLoop_walk {start rr n : Nat}
    (hwalk : List.IsChain (fun a b => k.ringPointer a = b) (rr :: (waiting ++ [start])))
    (hstart : start ∉ waiting) :
    (waiting.length < n → ∃ r, nextLoop k start n rr = .ok r) ∧
      ∀ r, nextLoop k start n rr = .ok r →
        r = ((waiting ++ [start]).find? k.isReady,
          ((waiting ++ [start]).find? k.isReady).getD start) := by
  induction waiting generalizing n rr with
  | nil =>
      cases n with
      | zero => exact ⟨fun h => absurd h (Nat.not_lt_zero _), fun r hr => by cases hr⟩
      | succ n =>
          rw [nextLoop_succ (by simpa using hwalk)]
          cases hready : k.isReady start <;> simp [hready]
  | cons a rest ih =>
      cases n with
      | zero => exact ⟨fun h => absurd h (Nat.not_lt_zero _), fun r hr => by cases hr⟩
      | succ n =>
          rw [List.mem_cons, not_or] at hstart
          rw [List.cons_append, List.isChain_cons_cons] at hwalk
          obtain ⟨hrest, hfound⟩ := ih (n := n) hwalk.2 hstart.2
          rw [nextLoop_succ hwalk.1]
          cases hready : k.isReady a with
          | true => simp [hready]
          | false =>
              rw [if_neg (by simp), if_neg (Ne.symm hstart.1)]
              refine ⟨fun hn => hrest (by simpa using hn), fun r hr => ?_⟩
              rw [hfound r hr]
              simp [hready]

/-- `get_next_task` serves the ring, with `rr_task` at the end. -/
theorem getNextTask_serve (hring : Circle k.ringPointer (waiting ++ [k.rr])) :
    (∀ fuel, waiting.length < fuel → ∃ r, getNextTask fuel k = .ok r) ∧
      ∀ fuel next k', getNextTask fuel k = .ok (next, k') →
        next = (serve k.isReady (waiting ++ [k.rr])).1 ∧
          k' = { k with rr := next.getD k.rr } := by
  have hwalk : List.IsChain (fun a b => k.ringPointer a = b) (k.rr :: (waiting ++ [k.rr])) := by
    simpa using hring.turn.closed
  have hnot : k.rr ∉ waiting := by
    have hnodup := hring.nodup
    simp only [List.nodup_append, List.mem_singleton] at hnodup
    exact fun hmem => hnodup.2.2 _ hmem _ rfl rfl
  refine ⟨fun fuel hfuel => ?_, fun fuel next k' hcall => ?_⟩
  · obtain ⟨r, hr⟩ := (nextLoop_walk hwalk hnot).1 hfuel
    exact ⟨_, by rw [getNextTask, hr]; rfl⟩
  · obtain ⟨rr, hloop, rfl⟩ := getNextTask_ok hcall
    obtain ⟨rfl, rfl⟩ := Prod.mk.inj ((nextLoop_walk hwalk hnot).2 _ hloop)
    exact ⟨serve_fst.symm, rfl⟩

/-- The ring after a call, with the new `rr_task` at the end. -/
theorem Circle.served (hring : Circle k.ringPointer (waiting ++ [k.rr])) :
    ∃ waiting', (serve k.isReady (waiting ++ [k.rr])).2 =
        waiting' ++ [((serve k.isReady (waiting ++ [k.rr])).1).getD k.rr] ∧
      (serve k.isReady (waiting ++ [k.rr])).2.Perm (waiting ++ [k.rr]) ∧
      Circle k.ringPointer (serve k.isReady (waiting ++ [k.rr])).2 := by
  rcases serve_cases k.isReady (waiting ++ [k.rr]) with
    ⟨-, hserve⟩ | ⟨skipped, a, later, horder, -, -, hserve⟩
  · rw [hserve]
    exact ⟨waiting, rfl, .refl _, hring⟩
  · rw [hserve]
    have hturned : waiting ++ [k.rr] = skipped ++ [a] ++ later := by simpa using horder
    rw [hturned] at hring ⊢
    refine ⟨later ++ skipped, rfl, ?_, by simpa using hring.turn⟩
    rw [List.append_assoc]
    exact List.perm_append_comm

/-- A call of `get_next_task`: the tasks ready then, and the task returned. -/
structure Turn where
  ready : Nat → Bool
  returned : Option Nat

/-- A call, and what happens up to the next one: tasks change, but none is added to the ring
or removed from it, and `rr_task` stays. -/
def TurnStep (k : Kernel) (turn : Turn) (k' : Kernel) : Prop :=
  turn.ready = k.isReady ∧ ∃ fuel k₁, getNextTask fuel k = .ok (turn.returned, k₁) ∧
    k'.rr = k₁.rr ∧ ∀ t, k'.ringPointer t = k₁.ringPointer t

def served (t : Nat) (turns : List Turn) : Nat := (turns.map Turn.returned).count (some t)

/-- A call in a ring: whom it serves, and the ring it leaves. -/
theorem TurnStep.serve {turn : Turn} (h : TurnStep k turn k')
    (hring : Circle k.ringPointer (waiting ++ [k.rr])) :
    turn.returned = (GlitchedOS.serve k.isReady (waiting ++ [k.rr])).1 ∧
      k'.rr = turn.returned.getD k.rr ∧
      ∃ waiting', (GlitchedOS.serve k.isReady (waiting ++ [k.rr])).2 = waiting' ++ [k'.rr] ∧
        (waiting' ++ [k'.rr]).Perm (waiting ++ [k.rr]) ∧
        Circle k'.ringPointer (waiting' ++ [k'.rr]) := by
  obtain ⟨-, fuel, k₁, hcall, hrr, hpointer⟩ := h
  obtain ⟨hreturned, rfl⟩ := (getNextTask_serve hring).2 fuel _ _ hcall
  obtain ⟨waiting', horder, hperm, hcircle⟩ := hring.served
  rw [← hreturned, show turn.returned.getD k.rr = k'.rr from hrr.symm] at horder
  rw [horder] at hperm hcircle
  exact ⟨hreturned, hrr, waiting', horder, hperm, hcircle.congr hpointer⟩

/-- A task returned is ready. -/
theorem TurnStep.ready {turn : Turn} (h : TurnStep k turn k') {t : Nat}
    (ht : turn.returned = some t) : turn.ready t = true := by
  obtain ⟨hready, fuel, k₁, hcall, -⟩ := h
  rw [ht] at hcall
  obtain ⟨rr, hloop, -⟩ := getNextTask_ok hcall
  rw [hready]
  exact decide_eq_true (nextLoop_ready hloop)

/-- The tasks returned are those that a round robin serves. -/
theorem turns_serveAll {turns : List Turn} (hrun : Run TurnStep k turns k')
    (hring : Circle k.ringPointer (waiting ++ [k.rr])) :
    turns.map Turn.returned = serveAll (turns.map Turn.ready) (waiting ++ [k.rr]) := by
  induction hrun generalizing waiting with
  | nil k => rfl
  | cons head tail ih =>
      obtain ⟨hreturned, -, waiting', horder, -, hnext⟩ := head.serve hring
      rw [List.map_cons, List.map_cons, serveAll, head.1, ← hreturned, horder, ih hnext]

theorem turns_circle {turns : List Turn} (hrun : Run TurnStep k turns k')
    (hring : Circle k.ringPointer (waiting ++ [k.rr])) :
    ∃ waiting', (waiting' ++ [k'.rr]).Perm (waiting ++ [k.rr]) ∧
      Circle k'.ringPointer (waiting' ++ [k'.rr]) := by
  induction hrun generalizing waiting with
  | nil k => exact ⟨waiting, .refl _, hring⟩
  | cons head tail ih =>
      obtain ⟨-, -, waiting₁, -, hperm, hnext⟩ := head.serve hring
      obtain ⟨waiting', hperm', hcircle⟩ := ih hnext
      exact ⟨waiting', hperm'.trans hperm, hcircle⟩

/-- From one return of `t` to the next one: a task that is ready all the time is returned,
and if `t` is ready all the time too, it is returned once. -/
theorem turns_fair {t u : Nat} {first last : Turn} {mid : List Turn}
    (hrun : Run TurnStep k (first :: (mid ++ [last])) k')
    (hring : Circle k.ringPointer (waiting ++ [k.rr]))
    (hfirst : first.returned = some t) (hlast : last.returned = some t)
    (hmid : ∀ turn ∈ mid, turn.returned ≠ some t) (hu : u ∈ waiting ++ [k.rr])
    (hready : ∀ turn ∈ mid ++ [last], turn.ready u = true) :
    1 ≤ served u (mid ++ [last]) ∧
      ((∀ turn ∈ mid, turn.ready t = true) → served u (mid ++ [last]) = 1) := by
  have hnot : some t ∉ mid.map Turn.returned := by simpa using hmid
  have hcount : served u (mid ++ [last]) =
      (mid.map Turn.returned).count (some u) + if t = u then 1 else 0 := by
    simp [served, hlast, List.count_singleton]
  by_cases hut : u = t
  · subst hut
    rw [hcount, List.count_eq_zero_of_not_mem hnot, if_pos rfl]
    exact ⟨Nat.le_refl 1, fun _ => rfl⟩
  cases hrun with
  | cons head tail =>
      obtain ⟨-, hrr, waiting₁, -, hperm, hnext⟩ := head.serve hring
      rw [hfirst, Option.getD_some] at hrr
      rw [hrr] at hperm hnext
      have hwaits : u ∈ waiting₁ := by
        have hmem := hperm.mem_iff.mpr hu
        simpa [hut] using hmem
      have houts := @turns_serveAll _ _ waiting₁ _ tail (by rwa [hrr])
      rw [hrr, List.map_append, List.map_singleton, hlast] at houts
      have hall : ∀ r ∈ (mid ++ [last]).map Turn.ready, r u = true :=
        List.forall_mem_map.mpr hready
      rw [hcount, if_neg (Ne.symm hut), Nat.add_zero]
      refine ⟨List.count_pos_iff.mpr (served_before hnext.nodup hall hwaits houts.symm),
        fun hstays => ?_⟩
      have hagain : last.ready t = true := by
        obtain ⟨k₂, -, hcall⟩ := tail.split
        exact hcall.of_single.ready hlast
      have ht : ∀ r ∈ (mid ++ [last]).map Turn.ready, r t = true :=
        List.forall_mem_map.mpr (List.forall_mem_append.mpr ⟨hstays, by simpa using hagain⟩)
      rw [count_served hnext.nodup hall ht hut houts.symm hnot, if_pos hwaits]

/-- `get_next_task` is a round robin. -/
theorem get_next_task_round_robin {before after : List Nat}
    (hring : Circle k.ringPointer (before ++ k.rr :: after)) :
    (∃ n, ∀ fuel, n ≤ fuel → getNextTask fuel k =
      .ok ((after ++ before ++ [k.rr]).find? k.isReady,
        { k with rr := ((after ++ before ++ [k.rr]).find? k.isReady).getD k.rr })) ∧
    ((after ++ before ++ [k.rr]).find? k.isReady = none ↔
      ∀ t ∈ before ++ k.rr :: after, k.isReady t = false) ∧
    ∀ {earlier mid later : List Turn} {first last : Turn} {k' : Kernel} {t u : Nat},
      Run TurnStep k (earlier ++ first :: (mid ++ last :: later)) k' →
      first.returned = some t → last.returned = some t →
      (∀ turn ∈ mid, turn.returned ≠ some t) → u ∈ before ++ k.rr :: after →
      (∀ turn ∈ mid ++ [last], turn.ready u = true) →
      1 ≤ served u (mid ++ [last]) ∧
        ((∀ turn ∈ mid, turn.ready t = true) → served u (mid ++ [last]) = 1) := by
  have horder : Circle k.ringPointer (after ++ before ++ [k.rr]) := by
    have hturned : Circle k.ringPointer ((before ++ [k.rr]) ++ after) := by simpa using hring
    simpa using hturned.turn
  have hmem : ∀ u, u ∈ before ++ k.rr :: after ↔ u ∈ after ++ before ++ [k.rr] := by
    intro u
    simp only [List.mem_append, List.mem_cons, List.not_mem_nil, or_false]
    tauto
  refine ⟨⟨(after ++ before).length + 1, fun fuel hfuel => ?_⟩, ?_, ?_⟩
  · obtain ⟨⟨next, k₁⟩, hcall⟩ := (getNextTask_serve horder).1 fuel hfuel
    obtain ⟨hnext, hk₁⟩ := (getNextTask_serve horder).2 fuel next k₁ hcall
    rw [hcall, hk₁, hnext, serve_fst]
  · rw [List.find?_eq_none]
    simp only [hmem, Bool.not_eq_true]
  · intro earlier mid later first last k' t u hrun hfirst hlast hmid hu hready
    obtain ⟨k₁, hearlier, hrun⟩ := hrun.split
    rw [← List.cons_append, List.append_cons, List.cons_append] at hrun
    obtain ⟨k₂, hrun, -⟩ := hrun.split
    obtain ⟨waiting', hperm, hcircle⟩ := turns_circle hearlier horder
    exact turns_fair hrun hcircle hfirst hlast hmid
      (hperm.mem_iff.mpr ((hmem u).mp hu)) hready

/-- A ring of two tasks, of which the first may be blocked. -/
def twoTasks (blocked : Bool) (rr : Nat) : Kernel :=
  { bootKernel smallBoot with
    tasks := fun t =>
      { zeroTask with
        next := if t = initTask then 2 else initTask
        state := if t = initTask ∧ blocked = true then .blocked else .ready }
    rr := rr }

theorem twoTasks_circle (blocked : Bool) (rr : Nat) :
    Circle (twoTasks blocked rr).ringPointer [initTask, 2] where
  ne_nil := by decide
  nodup := by decide
  closed := by
    simp [initTask, Kernel.ringPointer, twoTasks]

/-- Both tasks are ready, and the first one is next. -/
theorem get_next_task_round_robin_two :
    ∃ n, ∀ fuel, n ≤ fuel → getNextTask fuel (twoTasks false 2) =
      .ok (some initTask, { twoTasks false 2 with rr := initTask }) :=
  (@get_next_task_round_robin (twoTasks false 2) [initTask] [] (twoTasks_circle false 2)).1

/-- The first task is returned, is blocked for two calls, and is returned again; the second
one is ready all the time and is returned twice in between. -/
theorem returned_twice_between : ∃ first last mid k',
    Circle (twoTasks false 2).ringPointer [initTask, 2] ∧
      Run TurnStep (twoTasks false 2) (first :: (mid ++ [last])) k' ∧
      first.returned = some initTask ∧ last.returned = some initTask ∧
      (∀ turn ∈ mid, turn.returned ≠ some initTask) ∧
      (∀ turn ∈ first :: (mid ++ [last]), turn.ready 2 = true) ∧
      served 2 (mid ++ [last]) = 2 := by
  have hcall : ∀ blocked blocked' : Bool, ∀ rr t : Nat,
      getNextTask 3 (twoTasks blocked rr) = .ok (some t, twoTasks blocked t) →
        TurnStep (twoTasks blocked rr) ⟨(twoTasks blocked rr).isReady, some t⟩
          (twoTasks blocked' t) := by
    intro blocked blocked' rr t hnext
    exact ⟨rfl, 3, twoTasks blocked t, hnext, rfl, fun _ => rfl⟩
  refine ⟨⟨(twoTasks false 2).isReady, some initTask⟩,
    ⟨(twoTasks false 2).isReady, some initTask⟩,
    [⟨(twoTasks true initTask).isReady, some 2⟩, ⟨(twoTasks true 2).isReady, some 2⟩],
    twoTasks false initTask, twoTasks_circle false 2, ?_, rfl, rfl, ?_, ?_, rfl⟩
  · exact .cons (hcall false true 2 initTask rfl) (.cons (hcall true true initTask 2 rfl)
      (.cons (hcall true false 2 2 rfl) (.single (hcall false false 2 initTask rfl))))
  · simp [initTask]
  · simp [Kernel.isReady, twoTasks, initTask]

end GlitchedOS
