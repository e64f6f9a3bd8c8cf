/-
Every operation keeps the task ring and the process tree in order.  Operations
that move no task are handled together; the others are `gc_tasks`, `exit` and the
calls that make tasks.
-/
import GlitchedOS.Process.Tree

namespace GlitchedOS

variable {k k' k'' : Kernel} {ring ring' : List Nat}
variable {fuel : Nat} {pid : Int} {f : Task → Task} {start : Option Nat}

theorem Tree.of_ring (h : Tree k ring) (htasks : ∀ t ∈ ring, k'.tasks t = k.tasks t)
    (hidle : (k'.tasks idleTask).pid = (k.tasks idleTask).pid)
    (hallocated : k.allocated ⊆ k'.allocated) (hrr : k'.rr ∈ ring)
    (hcurrent : k'.current ∈ ring ∨ k'.current = idleTask)
    (hlast : k.lastPid ≤ k'.lastPid) : Tree k' ring := by
  have horder : Ring k' ring := by
    refine ⟨h.order.chain.congr fun t ht => ?_, fun t ht => ⟨?_, ?_⟩, hrr, hcurrent⟩
    · rw [ringNext, ringNext, htasks t ht]
    · exact hallocated (h.order.allocated t ht).1
    · exact (h.order.allocated t ht).2
  refine ⟨horder, ?_, ?_, ?_, ?_, ?_⟩
  · exact h.family.congr (fun t ht => by rw [htasks t ht])
      (fun t ht => by rw [htasks t ht]) (fun t ht => by rw [htasks t ht])
      (fun t ht => by rw [htasks t ht]) fun t ht => by rw [htasks t ht]
  · exact h.pids.congr (fun t ht => by rw [htasks t ht]) hidle
      (fun t ht hd => by rw [htasks t ht]; exact hd) hlast
  · refine h.waiters.congr (fun t ht => by rw [htasks t ht])
      (fun t ht => by rw [htasks t ht]) fun t ht c hw => ?_
    rw [htasks t ht] at hw
    rw [htasks c (h.waiters t ht c hw).1.mem]
    exact ⟨hw, id⟩
  · rw [htasks _ h.order.init_mem]
    exact h.init
  · rw [htasks _ h.order.init_mem]
    exact h.initParent

theorem Tree.of_tasks (h : Tree k ring) (htasks : k'.tasks = k.tasks)
    (hallocated : k.allocated ⊆ k'.allocated) (hrr : k'.rr ∈ ring)
    (hcurrent : k'.current ∈ ring ∨ k'.current = idleTask)
    (hlast : k.lastPid ≤ k'.lastPid) : Tree k' ring :=
  h.of_ring (fun _ _ => by rw [htasks]) (by rw [htasks]) hallocated hrr hcurrent
    hlast

theorem Tree.setSwitching (h : Tree k ring) (switching : Bool) :
    Tree { k with switching := switching } ring :=
  h.of_tasks rfl (Finset.Subset.refl _) h.order.rr h.order.current (le_refl _)

/-! ### States and waiting -/

def Rouses (k k' : Kernel) : Prop :=
  ∀ t, (k'.tasks t).state = .blocked → (k.tasks t).state = .blocked

theorem Rouses.refl (k : Kernel) : Rouses k k := fun _ => id

theorem Rouses.trans (h : Rouses k k') (h' : Rouses k' k'') : Rouses k k'' :=
  fun t ht => h t (h' t ht)

/-- No task gets blocked or starts to wait for a child, and no task but `child` is
deleted. -/
structure Settles (k k' : Kernel) (child : Option Nat) : Prop where
  rouses : Rouses k k'
  waits : ∀ t c, Waits (k'.tasks t) c → Waits (k.tasks t) c
  deleted : ∀ t, (k'.tasks t).state = .deleted →
    (k.tasks t).state = .deleted ∨ child = some t

namespace Settles

variable {child : Option Nat}

theorem of_proj (hstate : ∀ t, (k'.tasks t).state = (k.tasks t).state)
    (hreason : ∀ t, (k'.tasks t).blockReason = (k.tasks t).blockReason)
    (hblocked : ∀ t, (k'.tasks t).blockedProcess = (k.tasks t).blockedProcess) :
    Settles k k' child where
  rouses := fun t => (hstate t).symm.trans
  waits := fun t _ hw => ⟨(hstate t).symm.trans hw.state,
    (hreason t).symm.trans hw.reason, (hblocked t).symm.trans hw.child⟩
  deleted := fun t hd => Or.inl ((hstate t).symm.trans hd)

theorem refl (k : Kernel) : Settles k k child :=
  of_proj (fun _ => rfl) (fun _ => rfl) fun _ => rfl

theorem of_attrsOnly (h : AttrsOnly k k') : Settles k k' child :=
  of_proj (h.proj Task.state fun _ _ => rfl)
    (h.proj Task.blockReason fun _ _ => rfl)
    (h.proj Task.blockedProcess fun _ _ => rfl)

theorem of_pendingOnly (h : PendingOnly k k') : Settles k k' child :=
  of_proj (h.proj Task.state fun _ _ => rfl)
    (h.proj Task.blockReason fun _ _ => rfl)
    (h.proj Task.blockedProcess fun _ _ => rfl)

theorem trans (h : Settles k k' child) (h' : Settles k' k'' child) :
    Settles k k'' child where
  rouses := h.rouses.trans h'.rouses
  waits := fun t c hw => h.waits t c (h'.waits t c hw)
  deleted := fun t hd => (h'.deleted t hd).elim (h.deleted t) Or.inr

theorem modifyTask (k : Kernel) (t : Nat)
    (hblocked : (f (k.tasks t)).state = .blocked → (k.tasks t).state = .blocked)
    (hwaits : ∀ c, Waits (f (k.tasks t)) c → Waits (k.tasks t) c)
    (hdeleted : (f (k.tasks t)).state = .deleted →
      (k.tasks t).state = .deleted ∨ child = some t) :
    Settles k (k.modifyTask t f) child where
  rouses := fun u hu => by
    rw [Kernel.modifyTask_apply] at hu
    split at hu
    · rename_i heq
      subst heq
      exact hblocked hu
    · exact hu
  waits := fun u c hw => by
    rw [Kernel.modifyTask_apply] at hw
    split at hw
    · rename_i heq
      subst heq
      exact hwaits c hw
    · exact hw
  deleted := fun u hd => by
    rw [Kernel.modifyTask_apply] at hd
    split at hd
    · rename_i heq
      subst heq
      exact hdeleted hd
    · exact Or.inl hd

theorem ready (k : Kernel) (t : Nat) (hready : (f (k.tasks t)).state = .ready) :
    Settles k (k.modifyTask t f) child := by
  refine modifyTask k t (fun hb => ?_) (fun c hw => ?_) fun hd => ?_
  · cases hready.symm.trans hb
  · cases hready.symm.trans hw.state
  · cases hready.symm.trans hd

theorem unblock (k : Kernel) (t : Nat) (rax : Int) :
    Settles k (GlitchedOS.unblock k t rax) child :=
  ready k t rfl

theorem consumeEvent (k : Kernel) (c : Nat) (event : WaitEvent) :
    Settles k (GlitchedOS.consumeEvent k c event) (some c) := by
  have hreset : Settles k (k.modifyTask c fun x => { x with waitpidEvent := 0 })
      (some c) :=
    modifyTask k c id (fun _ hw => ⟨hw.state, hw.reason, hw.child⟩) Or.inl
  cases event with
  | terminated =>
      refine modifyTask k c (f := fun x => { x with state := .deleted })
        (fun hb => ?_) (fun _ hw => ?_) fun _ => Or.inr rfl
      · cases hb
      · cases hw.state
  | stopped => exact hreset
  | continued => exact hreset

theorem signalTask (k : Kernel) (t sig : Nat) :
    Settles k (GlitchedOS.signalTask k t sig) child := by
  refine trans ?_ (of_pendingOnly (signalTask_pending k t sig))
  have hstate : ((k.tasks t).signalled sig).state = .blocked ∨
      ((k.tasks t).signalled sig).state = .deleted →
      (k.tasks t).signalled sig = k.tasks t := by
    rw [Task.signalled]
    split
    · rintro (h | h) <;> cases h
    split
    · rintro (h | h) <;> cases h
    · exact fun _ => rfl
  refine modifyTask k t (fun hb => ?_) (fun c hw => ?_) fun hd => ?_
  · rwa [hstate (Or.inl hb)] at hb
  · rwa [hstate (Or.inl hw.state)] at hw
  · rw [hstate (Or.inr hd)] at hd
    exact Or.inl hd

theorem killLoop {sig : Nat} : ∀ (l : List Nat) (k : Kernel),
    Settles k (GlitchedOS.killLoop pid sig l k).2 child
  | [], k => refl k
  | t :: rest, k => by
      rw [GlitchedOS.killLoop]
      split
      · exact (signalTask k t sig).trans (killLoop rest _)
      · exact killLoop rest k

theorem checkDelay (reduceTicks : Bool) (k : Kernel) (t : Nat) :
    Settles k (GlitchedOS.checkDelay reduceTicks k t) child := by
  have hticks : ∀ (k : Kernel) (f : Task → BitVec 64), Settles k (k.modifyTask t
      fun x => { x with blockedTicks := f x }) child := fun k _ =>
    modifyTask k t id (fun _ hw => ⟨hw.state, hw.reason, hw.child⟩) Or.inl
  rw [GlitchedOS.checkDelay]
  generalize hk₁ : (if reduceTicks = true then k.modifyTask t fun x =>
    { x with blockedTicks := x.blockedTicks - 1#64 } else k) = k₁
  have h₁ : Settles k k₁ child := by
    rw [← hk₁]
    split
    · exact hticks k fun x => x.blockedTicks - 1#64
    · exact refl k
  generalize hk₂ : (if (k₁.tasks t).blockedTicks = 0#64 then k₁.modifyTask t
    fun x => { x with state := .ready, blockReason := .none } else k₁) = k₂
  have h₂ : Settles k k₂ child := by
    rw [← hk₂]
    split
    · exact h₁.trans (ready k₁ t rfl)
    · exact h₁
  split
  · exact (h₂.trans (unblock k₂ t _)).trans (hticks _ fun _ => 0#64)
  · exact h₂

end Settles

theorem Tree.of_settles (h : Tree k ring) (hq : Quiet k k')
    (hs : Settles k k' none) : Tree k' ring :=
  h.of_quiet hq fun t _ c hw => ⟨hs.waits t c hw, fun hd =>
    (hs.deleted c hd).resolve_right (Option.some_ne_none c).symm⟩

/-- An event of a child is taken off, and its parent does not wait for it. -/
theorem Tree.reap (h : Tree k ring) {p child : Nat}
    (hchild : IsChild k ring p child) (hq : Quiet k k')
    (hs : Settles k k' (some child)) (hp : ∀ c, ¬Waits (k'.tasks p) c) :
    Tree k' ring ∧ Rouses k k' := by
  refine ⟨h.of_quiet hq fun t ht c hw => ⟨hs.waits t c hw, fun hd => ?_⟩,
    hs.rouses⟩
  refine (hs.deleted c hd).resolve_right fun heq => ?_
  obtain rfl := Option.some.inj heq
  have hother := (h.waiters t ht child (hs.waits t child hw)).1
  obtain rfl := Option.some.inj (hother.parent.symm.trans hchild.parent)
  exact hp child hw

/-! ### Waiting -/

theorem getChild_mem {child : Nat} : ∀ {n : Nat} {start : Option Nat} {kids : List Nat},
    Segment (fun t => (k.tasks t).nextSibling) start kids none →
    getChild k pid n start = .ok (some child) →
    child ∈ kids ∧ (k.tasks child).state ≠ .deleted ∧
      (k.tasks child).pid = pid
  | n, _, [], hseg, h => by
      obtain rfl := hseg
      cases n <;> cases h
  | 0, _, c :: rest, hseg, h => by
      obtain rfl := hseg.1
      cases h
  | n + 1, _, c :: rest, hseg, h => by
      obtain rfl := hseg.1
      rw [getChild] at h
      split at h
      · rename_i hc
        obtain rfl := Option.some.inj (Except.ok.inj h)
        exact ⟨List.mem_cons_self, hc⟩
      · obtain ⟨hmem, hc⟩ := getChild_mem hseg.2 h
        exact ⟨List.mem_cons_of_mem c hmem, hc⟩

theorem firstWaitpidTarget_mem {flags : BitVec 32} {child : Nat} : ∀ {n : Nat}
    {start : Option Nat} {kids : List Nat},
    Segment (fun t => (k.tasks t).nextSibling) start kids none →
    firstWaitpidTarget k flags n start = .ok (some child) → child ∈ kids
  | n, _, [], hseg, h => by
      obtain rfl := hseg
      cases n <;> cases h
  | 0, _, c :: rest, hseg, h => by
      obtain rfl := hseg.1
      cases h
  | n + 1, _, c :: rest, hseg, h => by
      obtain rfl := hseg.1
      rw [firstWaitpidTarget] at h
      split at h
      · obtain rfl := Option.some.inj (Except.ok.inj h)
        exact List.mem_cons_self
      split at h
      · obtain rfl := Option.some.inj (Except.ok.inj h)
        exact List.mem_cons_self
      split at h
      · obtain rfl := Option.some.inj (Except.ok.inj h)
        exact List.mem_cons_self
      · exact List.mem_cons_of_mem c (firstWaitpidTarget_mem hseg.2 h)

/-- `get_first_waitpid_target` returns children with an event only. -/
theorem firstWaitpidTarget_event {flags : BitVec 32} {child : Nat} : ∀ {n : Nat}
    {start : Option Nat}, firstWaitpidTarget k flags n start = .ok (some child) →
    waitEvent (k.tasks child) flags ≠ none
  | n, none, h => by cases n <;> cases h
  | 0, some c, h => by cases h
  | n + 1, some c, h => by
      rw [firstWaitpidTarget] at h
      split at h
      · rename_i hz
        obtain rfl := Option.some.inj (Except.ok.inj h)
        simp [waitEvent, hz]
      split at h
      · rename_i hz hs
        obtain rfl := Option.some.inj (Except.ok.inj h)
        simp [waitEvent, hz, hs]
      split at h
      · rename_i hz hs hc
        obtain rfl := Option.some.inj (Except.ok.inj h)
        simp [waitEvent, hz, hs, hc]
      · exact firstWaitpidTarget_event h

theorem Family.children (h : Family k ring) {p : Nat} (hp : p ∈ ring)
    (halive : ¬(k.tasks p).Dead) : ∃ kids, Kids k ring p kids none := by
  obtain ⟨kids, stop, hkids⟩ := h.kids p hp (Or.inl halive)
  exact ⟨kids, hkids.alive halive ▸ hkids⟩

theorem Tree.waitTarget (h : Tree k ring) {child : Nat}
    {options : BitVec 32} (hcur : k.current ∈ ring)
    (halive : ¬k.currentTask.Dead)
    (htarget : WaitTarget fuel k pid options child) :
    IsChild k ring k.current child := by
  obtain ⟨kids, hkids⟩ := h.family.children hcur halive
  refine (hkids.mem child).mp ?_
  rcases htarget with ⟨-, hget⟩ | ⟨-, hget⟩
  · exact (getChild_mem hkids.segment hget).1
  · exact firstWaitpidTarget_mem hkids.segment hget

/-- `run_next`: the running task may be ready, and `gc_tasks` frees tasks. -/
theorem Tree.runNext (h : Tree k ring) (halive : ¬k.currentTask.Dead)
    (hrun : GlitchedOS.runNext fuel k = .ok k') :
    ∃ ring', Tree k' ring' ∧ (∀ u ∈ ring', u ∈ ring) ∧
      ∀ u, Leaked k' ring' u → Leaked k ring u := by
  rw [GlitchedOS.runNext, bind_ok_iff] at hrun
  obtain ⟨k₁, hgc, hrun⟩ := hrun
  obtain rfl := Except.ok.inj hrun
  obtain ⟨f, hf⟩ : ∃ f : Task → Task, f = fun x =>
    if x.state = .running then { x with state := .ready } else x := ⟨_, rfl⟩
  rw [← hf] at hgc
  have hcases : ∀ x, f x = x ∨ f x = { x with state := .ready } := by
    intro x
    rw [hf]
    dsimp only
    split
    · exact Or.inr rfl
    · exact Or.inl rfl
  have hready : Tree (k.modifyCurrent f) ring := by
    refine h.modifyTask k.current ?_ (fun x => ?_) (fun c hw => ?_) fun hd => ?_
    · rcases hcases (k.tasks k.current) with heq | heq
      · rw [heq]
        exact .of_state rfl
      · rw [heq]
        exact .of_alive halive (Task.not_dead_of_state (s := .ready) rfl (by decide))
    · rcases hcases x with heq | heq <;> rw [heq] <;> exact ⟨rfl, rfl, rfl⟩
    · rcases hcases (k.tasks k.current) with heq | heq
      · rwa [heq] at hw
      · rw [heq] at hw
        cases hw.state
    · rcases hcases (k.tasks k.current) with heq | heq
      · rw [heq] at hd
        exact Or.inl hd
      · rw [heq] at hd
        cases hd
  obtain ⟨ring', h', hsub, hleak⟩ :=
    Tree.gcLoop hready hready.order.init_mem rfl hgc
  exact ⟨ring', h'.setSwitching true, hsub, hleak⟩

/-- The running task blocks: it waits for a child of its own, or for none. -/
theorem Tree.block (h : Tree k ring)
    (halive : ¬k.currentTask.Dead) (hf : ∀ x, (f x).isKworker = x.isKworker ∧
      (f x).pid = x.pid ∧ (f x).links = x.links)
    (hblocked : (f k.currentTask).state = .blocked)
    (hwaits : ∀ c, Waits (f k.currentTask) c →
      IsChild k ring k.current c ∧ (k.tasks c).state ≠ .deleted) :
    Tree (k.modifyCurrent f) ring := by
  have hq : Quiet k (k.modifyCurrent f) := by
    refine .modifyTask k k.current (.of_alive halive ?_) hf
    exact Task.not_dead_of_state hblocked (by decide)
  have hdeleted : ∀ u, ((k.modifyCurrent f).tasks u).state = .deleted →
      (k.tasks u).state = .deleted := by
    intro u hd
    rw [Kernel.modifyCurrent, Kernel.modifyTask_apply] at hd
    split at hd
    · rename_i heq
      subst heq
      cases hblocked.symm.trans hd
    · exact hd
  have hkept : ∀ p c, IsChild k ring p c → IsChild (k.modifyCurrent f) ring p c :=
    fun p c hc => ⟨hc.mem, (hq.kworker c).trans hc.user, hc.ne_init,
      (congrArg Links.parent (hq.links c)).trans hc.parent⟩
  refine ⟨h.order.congr (fun t _ => congrArg Links.next (hq.links t))
    (Finset.Subset.refl _) rfl rfl, ?_, ?_, ?_, (hq.kworker _).trans h.init,
    (congrArg Links.parent (hq.links _)).trans h.initParent⟩
  · exact h.family.congr (fun t _ => hq.kworker t)
      (fun t _ => congrArg Links.parent (hq.links t))
      (fun t _ => congrArg Links.nextSibling (hq.links t))
      (fun t _ => congrArg Links.child (hq.links t)) fun t _ => (hq.life t).dead
  · exact h.pids.congr (fun t _ => hq.pid t) (hq.pid _)
      (fun t _ => (hq.life t).deleted) (le_refl _)
  · intro t ht c hw
    rw [Kernel.modifyCurrent, Kernel.modifyTask_apply] at hw
    split at hw
    · rename_i heq
      subst heq
      obtain ⟨hc, hd⟩ := hwaits c hw
      exact ⟨hkept _ c hc, fun hd' => hd (hdeleted c hd')⟩
    · obtain ⟨hc, hd⟩ := h.waiters t ht c hw
      exact ⟨hkept _ c hc, fun hd' => hd (hdeleted c hd')⟩

/-- The tasks of `ring'` are tasks of `ring` or new. -/
def OldOrNew (k : Kernel) (ring ring' : List Nat) : Prop :=
  ∀ u ∈ ring', u ∈ ring ∨ u ∉ k.allocated

/-- What an operation leaves of the ring: tasks in order, and none newly out of
reach. -/
def KeepsTree (k : Kernel) (ring : List Nat) (k' : Kernel) : Prop :=
  ∃ ring', Tree k' ring' ∧ OldOrNew k ring ring' ∧
    ∀ u, Leaked k' ring' u → Leaked k ring u

theorem KeepsTree.of_tree (h : Tree k' ring) (hallocated : k'.allocated =
    k.allocated) : KeepsTree k ring k' :=
  ⟨ring, h, fun _ => Or.inl, fun _ hu => ⟨hallocated ▸ hu.1, hu.2⟩⟩

/-- A quiet operation before another one. -/
theorem KeepsTree.after (h : KeepsTree k' ring k'')
    (hallocated : k'.allocated = k.allocated) : KeepsTree k ring k'' := by
  obtain ⟨ring', htree, hring, hleak⟩ := h
  refine ⟨ring', htree, fun u hu => hallocated ▸ hring u hu, fun u hu => ?_⟩
  obtain ⟨hmem, hout⟩ := hleak u hu
  exact ⟨hallocated ▸ hmem, hout⟩

theorem Awake.of_rouses (h : k.currentTask.state ≠ .blocked)
    (hrouses : Rouses k k') (hcurrent : k'.current = k.current) : Awake k' := by
  intro _ hb
  rw [Kernel.currentTask, hcurrent] at hb
  exact h (hrouses _ hb)

theorem Awake.of_switching (h : k.switching = true) : Awake k := by
  intro hs
  cases h.symm.trans hs

theorem Awake.of_attrsOnly (h : Awake k) (hattrs : AttrsOnly k k') : Awake k' := by
  have hq := Quiet.of_attrsOnly hattrs
  intro hs hb
  rw [Kernel.currentTask, hq.current, hattrs.proj Task.state fun _ _ => rfl] at hb
  exact h (hq.switching.symm.trans hs) hb

theorem runNext_switching (h : GlitchedOS.runNext fuel k = .ok k') :
    k'.switching = true := by
  rw [GlitchedOS.runNext, bind_ok_iff] at h
  obtain ⟨k₁, -, h⟩ := h
  rw [← Except.ok.inj h]

theorem Tree.sleep (h : Tree k ring) {ms : BitVec 64}
    (halive : ¬k.currentTask.Dead) (hawake : Awake k)
    (hrun : GlitchedOS.sleep fuel k ms = .ok k') :
    KeepsTree k ring k' ∧ Awake k' := by
  rw [GlitchedOS.sleep] at hrun
  split at hrun
  · obtain rfl := Except.ok.inj hrun
    exact ⟨.of_tree (h.of_attrsOnly (.enterSyscall k 0)) rfl,
      hawake.of_attrsOnly (.enterSyscall k 0)⟩
  · have hblock := h.block (f := fun x =>
      { x with state := .blocked, blockReason := .delay, blockedTicks := ms,
               iframe := { x.iframe with rax := 0 } }) halive
      (fun _ => ⟨rfl, rfl, rfl⟩) rfl fun c hw => by cases hw.reason
    have hnext : ¬(k.modifyCurrent fun x =>
        { x with state := .blocked, blockReason := .delay, blockedTicks := ms,
                 iframe := { x.iframe with rax := 0 } }).currentTask.Dead := by
      refine Task.not_dead_of_state (s := .blocked) ?_ (by decide)
      rw [Kernel.modifyCurrent, Kernel.currentTask, Kernel.modifyTask_current,
        Kernel.modifyTask_self]
    obtain ⟨ring', h', hsub, hleak⟩ := hblock.runNext hnext hrun
    exact ⟨⟨ring', h', fun u hu => Or.inl (hsub u hu), hleak⟩,
      .of_switching (runNext_switching hrun)⟩

theorem Tree.waitpid (h : Tree k ring)
    {wstatus : Option Nat} {options : BitVec 32} {r : WaitResult}
    (hcur : k.current ∈ ring) (halive : ¬k.currentTask.Dead)
    (hawake : k.currentTask.state ≠ .blocked)
    (hrun : GlitchedOS.waitpid fuel k pid wstatus options = .ok (r, k')) :
    KeepsTree k ring k' ∧ Awake k' := by
  rcases waitpid_ok hrun with ⟨ret, -, -, rfl⟩ |
      ⟨child, event, htarget, hevent, -, rfl⟩ | ⟨-, target, htarget, hnext⟩
  · exact ⟨.of_tree h rfl, fun _ => hawake⟩
  · have hchild := h.waitTarget hcur halive htarget
    have hq := report_life hevent k.currentTask.cr3 wstatus
      (eventWord (k.tasks child) event)
    have hs : Settles k (consumeEvent (storeStatus k k.currentTask.cr3 wstatus
        (eventWord (k.tasks child) event)) child event) (some child) :=
      .trans (.of_attrsOnly (.storeStatus k _ _ _)) (.consumeEvent _ child event)
    have hreap := h.reap hchild hq hs fun c hw => hawake (hs.waits _ c hw).state
    exact ⟨.of_tree hreap.1 hq.allocated, .of_rouses hawake hreap.2 hq.current⟩
  · have hblock : Tree (blockWaiting k target wstatus options) ring := by
      refine h.block halive (fun _ => ⟨rfl, rfl, rfl⟩) rfl fun c hw => ?_
      obtain ⟨hfound, hnone⟩ := htarget c hw.child
      refine ⟨h.waitTarget hcur halive hfound, ?_⟩
      obtain ⟨kids, hkids⟩ := h.family.children hcur halive
      rcases hfound with ⟨-, hget⟩ | ⟨-, hget⟩
      · exact (getChild_mem hkids.segment hget).2.1
      · exact absurd hnone (firstWaitpidTarget_event hget)
    have halive' : ¬(blockWaiting k target wstatus options).currentTask.Dead := by
      refine Task.not_dead_of_state (s := .blocked) ?_ (by decide)
      rw [blockWaiting, Kernel.modifyCurrent, Kernel.currentTask,
        Kernel.modifyTask_current, Kernel.modifyTask_self]
    obtain ⟨ring', h', hsub, hleak⟩ := hblock.runNext halive' hnext
    exact ⟨⟨ring', h', fun u hu => Or.inl (hsub u hu), hleak⟩,
      .of_switching (runNext_switching hnext)⟩

/-! ### Blocked tasks -/

theorem Tree.checkWaitChild (h : Tree k ring) {t child : Nat} (ht : t ∈ ring)
    (hw : Waits (k.tasks t) child) :
    Tree (GlitchedOS.checkWaitChild k t child).2 ring ∧
      Rouses k (GlitchedOS.checkWaitChild k t child).2 := by
  have halive : ¬(k.tasks t).Dead := Task.not_dead_of_state hw.state (by decide)
  have hq : Quiet k (GlitchedOS.checkWaitChild k t child).2 :=
    checkWaitChild_life halive
  have hchild := (h.waiters t ht child hw).1
  have hclear : ∀ (k : Kernel) (rax : Int), Settles k ((unblock k t
      rax).modifyTask t fun x => { x with blockedProcess := none })
        (some child) := fun k rax =>
    .trans (.unblock k t rax) (.modifyTask _ t id (fun c hw => by cases hw.child)
      Or.inl)
  have hnot : ∀ (k : Kernel) (rax : Int) c, ¬Waits (((unblock k t
      rax).modifyTask t fun x => { x with blockedProcess := none }).tasks t) c := by
    intro k rax c hw
    rw [Kernel.modifyTask_self] at hw
    cases hw.child
  rw [GlitchedOS.checkWaitChild] at hq ⊢
  dsimp only at hq ⊢
  split
  · rename_i event hevent
    rw [hevent] at hq
    exact h.reap hchild hq (.trans (.trans (.of_attrsOnly
      (.storeStatus k _ _ _)) (.consumeEvent _ child event)) (hclear _ _))
      (hnot _ _)
  · rename_i hevent
    rw [hevent] at hq
    split
    · rename_i hpending
      rw [if_pos hpending] at hq
      exact h.reap hchild hq (hclear _ _) (hnot _ _)
    · exact ⟨h, .refl k⟩

theorem Tree.checkWaitAny (h : Tree k ring) {t : Nat}
    {report : Option (Nat × WaitEvent)} (ht : t ∈ ring)
    (hblocked : (k.tasks t).state = .blocked)
    (hrun : GlitchedOS.checkWaitAny fuel k t = .ok (report, k')) :
    Tree k' ring ∧ Rouses k k' := by
  have halive : ¬(k.tasks t).Dead := Task.not_dead_of_state hblocked (by decide)
  have hq := checkWaitAny_life halive hrun
  rw [GlitchedOS.checkWaitAny] at hrun
  dsimp only at hrun
  rw [bind_ok_iff] at hrun
  obtain ⟨target, htarget, hrun⟩ := hrun
  split at hrun
  · obtain ⟨-, rfl⟩ := Prod.mk.inj (Except.ok.inj hrun)
    split
    · have hs : Settles k _ none := .unblock k t eIntr
      exact ⟨h.of_settles (unblock_life halive _) hs, hs.rouses⟩
    · exact ⟨h, .refl k⟩
  rename_i child
  split at hrun
  · obtain ⟨-, rfl⟩ := Prod.mk.inj (Except.ok.inj hrun)
    exact ⟨h, .refl k⟩
  rename_i event hevent
  obtain ⟨kids, hkids⟩ := h.family.children ht halive
  have hchild := (hkids.mem child).mp
    (firstWaitpidTarget_mem hkids.segment htarget)
  obtain ⟨-, rfl⟩ := Prod.mk.inj (Except.ok.inj hrun)
  refine h.reap hchild hq ?_ fun c hw => ?_
  · refine .trans ?_ (.unblock _ t _)
    split
    · exact .of_attrsOnly (.storeStatus k _ _ _)
    · exact .trans (.of_attrsOnly (.storeStatus k _ _ _))
        (.consumeEvent _ child event)
  · rw [unblock, Kernel.modifyTask_self] at hw
    cases hw.state

theorem Tree.checkBlockedTask (h : Tree k ring) {t : Nat}
    {reduceTicks : Bool} {report : Option (Nat × WaitEvent)} (ht : t ∈ ring)
    (hrun : GlitchedOS.checkBlockedTask fuel reduceTicks k t = .ok (report, k')) :
    Tree k' ring ∧ Rouses k k' := by
  have hq := checkBlockedTask_life hrun
  rw [GlitchedOS.checkBlockedTask] at hrun
  split at hrun
  · obtain ⟨-, rfl⟩ := Prod.mk.inj (Except.ok.inj hrun)
    exact ⟨h, .refl k⟩
  rename_i hblocked
  have hblocked : (k.tasks t).state = .blocked := not_not.mp hblocked
  split at hrun
  · obtain ⟨-, rfl⟩ := Prod.mk.inj (Except.ok.inj hrun)
    exact ⟨h, .refl k⟩
  · obtain ⟨-, rfl⟩ := Prod.mk.inj (Except.ok.inj hrun)
    have hs : Settles k _ none := .checkDelay reduceTicks k t
    exact ⟨h.of_settles hq hs, hs.rouses⟩
  · rename_i hreason
    split at hrun
    · rename_i child hchild
      have hdone := h.checkWaitChild ht ⟨hblocked, hreason, hchild⟩
      rw [Except.ok.inj hrun] at hdone
      exact hdone
    · exact h.checkWaitAny ht hblocked hrun

theorem Tree.checkBlockedLoop {reduceTicks : Bool} :
    ∀ {l : List Nat} {k k' : Kernel} {reports : List (Nat × WaitEvent)},
      Tree k ring → (∀ t ∈ l, t ∈ ring) →
      GlitchedOS.checkBlockedLoop fuel reduceTicks l k = .ok (reports, k') →
      Tree k' ring ∧ Rouses k k'
  | [], k, _, _, h, _, hrun => by
      obtain ⟨-, rfl⟩ := Prod.mk.inj (Except.ok.inj hrun)
      exact ⟨h, .refl k⟩
  | t :: rest, k, _, _, h, hl, hrun => by
      rw [GlitchedOS.checkBlockedLoop, bind_ok_iff] at hrun
      obtain ⟨⟨report, k₁⟩, hone, hrun⟩ := hrun
      dsimp only at hrun
      rw [bind_ok_iff] at hrun
      obtain ⟨⟨reports, k₂⟩, hrest, hrun⟩ := hrun
      obtain ⟨-, rfl⟩ := Prod.mk.inj (Except.ok.inj hrun)
      obtain ⟨h₁, hrouses⟩ := h.checkBlockedTask (hl t List.mem_cons_self) hone
      obtain ⟨h₂, hrouses₂⟩ := checkBlockedLoop h₁
        (fun u hu => hl u (List.mem_cons_of_mem t hu)) hrest
      exact ⟨h₂, hrouses.trans hrouses₂⟩

theorem ringFrom_eq : ∀ {n t : Nat} {l rest : List Nat},
    ringFrom k n t = .ok l → Chain (ringNext k) (some t) rest → l = rest
  | 0, _, _, _, hrun, _ => by cases hrun
  | n + 1, t, l, [], _, hchain => by cases hchain
  | n + 1, t, l, a :: rest, hrun, hchain => by
      obtain rfl := Option.some.inj hchain.1
      have htail := hchain.2
      rw [ringFrom] at hrun
      rw [ringNext] at htail
      split at hrun
      · rename_i hlast
        rw [if_pos hlast] at htail
        obtain rfl := Except.ok.inj hrun
        cases rest with
        | nil => rfl
        | cons b rest => cases htail.1
      · rename_i hmore
        rw [if_neg hmore] at htail
        rw [bind_ok_iff] at hrun
        obtain ⟨l', hl', hrun⟩ := hrun
        obtain rfl := Except.ok.inj hrun
        rw [ringFrom_eq hl' htail]

theorem Ring.ringFrom (h : Ring k ring) {l : List Nat}
    (hrun : GlitchedOS.ringFrom k fuel initTask = .ok l) : l = ring :=
  ringFrom_eq hrun h.chain

/-! ### Exit and signals -/

/-- The orphans of `t` go to `target`: the loop run from a state with the links of
`k`. -/
theorem Family.adopted (h : Family k ring) {t target : Nat} {k₀ : Kernel}
    (ht : t ∈ ring) (halive : ¬(k.tasks t).Dead) (htarget : target ∈ ring)
    (hpar : Keeper k target) (hne : t ≠ target)
    (hlinks : ∀ u, (k₀.tasks u).links = (k.tasks u).links)
    (hrun : reparent fuel k₀ target (k.tasks t).child = .ok k') :
    ∃ orphans kids stop, orphans.Nodup ∧
      (∀ c, c ∈ orphans ↔ IsChild k ring t c) ∧ Kids k ring target kids stop ∧
      Adopted k target orphans kids stop k' := by
  obtain ⟨orphans, horphans⟩ := h.children ht halive
  obtain ⟨kids, stop, hkids⟩ := h.kids target htarget hpar
  have hsibling : ∀ u, (k₀.tasks u).nextSibling = (k.tasks u).nextSibling :=
    fun u => congrArg Links.nextSibling (hlinks u)
  refine ⟨orphans, kids, stop, horphans.nodup, horphans.mem, hkids, ?_⟩
  refine Adopted.of_links (?_ : Adopted k₀ target orphans kids stop k') hlinks
  refine reparent_adopted (horphans.segment.congr fun u _ => hsibling u) ?_
    horphans.nodup (fun u hu hu' => ?_) hrun
  · rw [show (k₀.tasks target).child = (k.tasks target).child from
      congrArg Links.child (hlinks target)]
    exact hkids.segment.congr fun u _ => hsibling u
  · exact hne (Option.some.inj (((horphans.mem u).mp hu).parent.symm.trans
      ((hkids.mem u).mp hu').parent))

theorem Tree.exit (h : Tree k ring) {env : CloseEnv} {ret : Int}
    (hcur : k.current ∈ ring) (halive : ¬k.currentTask.Dead)
    (hrun : GlitchedOS.exit env fuel k ret = .ok k') :
    Tree k' ring ∧ k'.allocated = k.allocated ∧ k'.switching = true := by
  obtain ⟨k₁, hne, hk₁, hrun⟩ := exit_ok hrun
  have hattrs : AttrsOnly k k₁ := by
    rw [hk₁]
    exact .of_filesOnly (.releaseProcessFds env k)
  clear hk₁
  have hq := Quiet.of_attrsOnly hattrs
  have h₁ := h.of_attrsOnly hattrs
  rw [← hq.current] at hcur hne
  have halive₁ : ¬(k₁.tasks k₁.current).Dead := fun hd => by
    rw [hq.current] at hd
    exact halive ((hq.life _).dead.mp hd)
  obtain ⟨parent, k₂, -, hrep, rfl⟩ := exitTask_ok hrun
  obtain ⟨k₀, hk₀⟩ : ∃ k₀, k₀ = (k₁.modifyCurrent fun x =>
      { x with state := .zombie, returnCode := ret }).modifyTask parent
        fun x => { x with pendingSignals := x.pendingSignals ||| sigBit sigChld } :=
    ⟨_, rfl⟩
  rw [← hk₀] at hrep
  have hproj : ∀ {α : Type} (π : Task → α),
      (∀ x s r p, π { x with state := s, returnCode := r, pendingSignals := p } =
        π x) → ∀ u, π (k₀.tasks u) = π (k₁.tasks u) := by
    intro α π hπ u
    rw [hk₀, Kernel.modifyTask_proj π _ _ _ (hπ _ _ _ _), Kernel.modifyCurrent,
      Kernel.modifyTask_proj π _ _ _ (hπ _ _ _ _)]
  have hstate₀ : ∀ u, (k₀.tasks u).state =
      if u = k₁.current then .zombie else (k₁.tasks u).state := by
    intro u
    rw [hk₀, Kernel.modifyTask_proj Task.state _ _ _ rfl, Kernel.modifyCurrent,
      Kernel.modifyTask_apply]
    split <;> rfl
  have hfields₀ : k₀.allocated = k₁.allocated ∧ k₀.rr = k₁.rr ∧
      k₀.current = k₁.current ∧ k₀.lastPid = k₁.lastPid := by
    rw [hk₀]
    exact ⟨rfl, rfl, rfl, rfl⟩
  clear hk₀
  have honly := LinksOnly.reparent hrep
  have hfields : k₂.allocated = k₁.allocated ∧ k₂.rr = k₁.rr ∧
      k₂.current = k₁.current ∧ k₂.lastPid = k₁.lastPid := by
    obtain ⟨_, rfl⟩ := honly
    exact hfields₀
  have hkeep : ∀ {α : Type} (π : Task → α),
      (∀ x s r p, π { x with state := s, returnCode := r, pendingSignals := p } =
        π x) → (∀ x l, π (Task.withLinks x l) = π x) →
      ∀ u, π (k₂.tasks u) = π (k₁.tasks u) := fun π hπ hl u =>
    (honly.proj π hl u).trans (hproj π hπ u)
  have hstate : ∀ u, (k₂.tasks u).state =
      if u = k₁.current then .zombie else (k₁.tasks u).state := fun u =>
    (honly.proj Task.state (fun _ _ => rfl) u).trans (hstate₀ u)
  obtain ⟨orphans, kids, stop, hnodup, horphans, hkids, hadopted⟩ := h₁.family.adopted
    hcur halive₁ h₁.order.init_mem (Or.inr rfl) hne
    (hproj Task.links fun _ _ _ _ => rfl) hrep
  have hkworker := hkeep Task.isKworker (fun _ _ _ _ => rfl) fun _ _ => rfl
  have hpid := hkeep Task.pid (fun _ _ _ _ => rfl) fun _ _ => rfl
  have hdead : ∀ u, (k₂.tasks u).Dead ↔ u = k₁.current ∨ (k₁.tasks u).Dead := by
    intro u
    rw [Task.Dead, hstate]
    split
    · rename_i heq
      simp [heq]
    · rename_i hu
      simp [hu, Task.Dead]
  have hdeleted : ∀ u, (k₂.tasks u).state = .deleted ↔
      (k₁.tasks u).state = .deleted := by
    intro u
    rw [hstate]
    split
    · rename_i heq
      subst heq
      exact iff_of_false (by decide) fun hd => halive₁ (Or.inr hd)
    · exact Iff.rfl
  refine ⟨Tree.setSwitching ⟨?_, ?_, ?_, ?_, ?_, ?_⟩ true,
    hfields.1.trans hq.allocated, rfl⟩
  · exact h₁.order.congr (fun u _ => hadopted.next u) hfields.1.ge hfields.2.1
      hfields.2.2.1
  · exact h₁.family.adopt h₁.order.init_mem hne h₁.parental_init hkworker hdead
      hnodup horphans hkids hadopted
  · exact h₁.pids.congr (fun u _ => hpid u) (hpid _)
      (fun u _ => (hdeleted u).mpr) hfields.2.2.2.ge
  · intro u hu c hw
    have hunot : u ≠ k₁.current := by
      rintro rfl
      have hz := (hstate k₁.current).symm.trans hw.state
      rw [if_pos rfl] at hz
      cases hz
    have hwstate := hw.state
    rw [hstate, if_neg hunot] at hwstate
    have hw₁ : Waits (k₁.tasks u) c :=
      ⟨hwstate, (hkeep Task.blockReason (fun _ _ _ _ => rfl) (fun _ _ => rfl) u).symm.trans
          hw.reason,
        (hkeep Task.blockedProcess (fun _ _ _ _ => rfl) (fun _ _ => rfl)
          u).symm.trans hw.child⟩
    obtain ⟨hc, hd⟩ := h₁.waiters u hu c hw₁
    refine ⟨⟨hc.mem, (hkworker c).trans hc.user, hc.ne_init, ?_⟩,
      fun hd' => hd ((hdeleted c).mp hd')⟩
    rw [hadopted.parent, if_neg, hc.parent]
    exact fun hmem => hunot (Option.some.inj (hc.parent.symm.trans
      ((horphans c).mp hmem).parent))
  · exact (hkworker _).trans h₁.init
  · rw [hadopted.parent, if_neg fun hmem => ((horphans _).mp hmem).ne_init rfl]
    exact h₁.initParent

/-- The running task is in the ring when it is a user task. -/
theorem Tree.current_mem (h : Tree k ring) (hl : Lively k)
    (huser : k.currentTask.isKworker = false) : k.current ∈ ring := by
  refine h.order.current.resolve_right fun heq => ?_
  rw [Kernel.currentTask, heq, hl.apart.kworker] at huser
  cases huser

theorem Tree.deliverSignals (h : Tree k ring) (hl : Lively k) {env : CloseEnv}
    (halive : ¬k.currentTask.Dead)
    (hrun : GlitchedOS.deliverSignals env fuel k = .ok k') :
    Tree k' ring ∧ k'.allocated = k.allocated ∧ (k'.switching = false →
      k'.currentTask.state = k.currentTask.state) := by
  obtain ⟨p, f, g, b, hrun⟩ := deliverSignals_ok hrun
  have hsig : Tree (k.modifyCurrent (·.withSignals p f g b)) ring :=
    h.modifyTask k.current (.of_state rfl) (fun _ => ⟨rfl, rfl, rfl⟩)
      (fun c hw => ⟨hw.state, hw.reason, hw.child⟩) Or.inl
  have hstate : (k.modifyCurrent (·.withSignals p f g b)).currentTask.state =
      k.currentTask.state :=
    Kernel.modifyTask_proj Task.state k k.current k.current rfl
  rcases hrun with rfl | ⟨-, ret, hexit⟩
  · exact ⟨hsig, rfl, fun _ => hstate⟩
  · have halive' : ¬(k.modifyCurrent (·.withSignals p f g b)).currentTask.Dead := by
      rw [Task.Dead, hstate]
      exact halive
    have hcur : k.current ∈ ring := by
      refine h.order.current.resolve_right fun hidle => ?_
      -- the idle task has no parent, and `exit` reads it
      obtain ⟨k₁, -, hk₁, hrun₁⟩ := exit_ok hexit
      obtain ⟨parent, -, hparent, -, -⟩ := exitTask_ok hrun₁
      have hfiles := FilesOnly.releaseProcessFds env
        (k.modifyCurrent (·.withSignals p f g b))
      rw [← hk₁] at hfiles
      have hcur₁ : k₁.current = idleTask := by
        obtain ⟨_, _, _, _, _, rfl⟩ := hfiles
        exact hidle
      have hnone : (k₁.tasks idleTask).parent = none :=
        (hfiles.proj Task.parent (fun _ _ => rfl) _).trans
          ((Kernel.modifyTask_proj Task.parent k _ _ rfl).trans hl.apart.parent)
      rw [Kernel.currentTask, hcur₁, hnone] at hparent
      cases hparent
    obtain ⟨htree, halloc, hswitch⟩ := hsig.exit hcur halive' hexit
    exact ⟨htree, halloc, fun hs => by rw [hswitch] at hs; cases hs⟩

theorem Ring.nextLoop (h : Ring k ring) {start : Nat} : ∀ {n rr : Nat}
    {next : Option Nat} {rr' : Nat}, rr ∈ ring →
    GlitchedOS.nextLoop k start n rr = .ok (next, rr') →
    rr' ∈ ring ∧ ∀ t, next = some t → t = rr'
  | 0, _, _, _, _, hrun => by cases hrun
  | n + 1, rr, next, rr', hrr, hrun => by
      have hnext := h.next_mem hrr
      rw [GlitchedOS.nextLoop] at hrun
      split at hrun
      · obtain ⟨rfl, rfl⟩ := Prod.mk.inj (Except.ok.inj hrun)
        exact ⟨hnext, fun t ht => (Option.some.inj ht).symm⟩
      split at hrun
      · obtain ⟨rfl, rfl⟩ := Prod.mk.inj (Except.ok.inj hrun)
        exact ⟨hnext, fun t ht => by cases ht⟩
      · exact nextLoop h hnext hrun

theorem Tree.switchTask (h : Tree k ring) (hl : Lively k) {env : CloseEnv}
    (hrun : GlitchedOS.switchTask env fuel k = .ok k') :
    Tree k' ring ∧ k'.allocated = k.allocated ∧ Awake k' := by
  obtain ⟨next, rr, hloop, hrun⟩ := switchTask_ok hrun
  obtain ⟨hrr, hnext⟩ := h.order.nextLoop h.order.rr hloop
  have hcur : next.getD idleTask ∈ ring ∨ next.getD idleTask = idleTask := by
    cases next with
    | none => exact Or.inr rfl
    | some t => exact Or.inl (hnext t rfl ▸ hrr)
  have halive : ¬(k.tasks (next.getD idleTask)).Dead := by
    cases next with
    | none => exact hl.idle
    | some t => exact Task.not_dead_of_state (nextLoop_ready hloop) (by decide)
  generalize next.getD idleTask = t at halive hcur hrun
  have hrunning : Tree (k.modifyTask t fun x => { x with state := .running })
      ring := by
    refine h.modifyTask t (.of_alive halive (Task.not_dead_of_state
      (s := .running) rfl (by decide))) (fun _ => ⟨rfl, rfl, rfl⟩) ?_ ?_
    · exact fun c hw => by cases hw.state
    · exact fun hd => by cases hd
  have hchosen : Tree (chooseTask k t rr) ring :=
    hrunning.of_tasks rfl (Finset.Subset.refl _) hrr hcur (le_refl _)
  have hstate : (chooseTask k t rr).currentTask.state = .running := by
    rw [chooseTask, Kernel.currentTask]
    simp
  have hlively : Lively (chooseTask k t rr) := by
    refine ⟨?_, ?_, fun _ => Task.not_dead_of_state hstate (by decide)⟩
    · exact (hl.apart.modifyTask t (f := fun x => { x with state := .running })
        fun _ => ⟨rfl, rfl⟩).of_tasks rfl rfl
    · have hlife := SameLife.modifyAlive halive (f := fun x =>
        { x with state := .running })
        (Task.not_dead_of_state (s := .running) rfl (by decide))
      exact fun hd => hl.idle ((hlife _).mp hd)
  obtain ⟨htree, halloc, hsame⟩ := hchosen.deliverSignals hlively
    (Task.not_dead_of_state hstate (by decide)) hrun
  refine ⟨htree, halloc, fun hs hblocked => ?_⟩
  rw [hsame hs, hstate] at hblocked
  cases hblocked

theorem Tree.kworkerExit (h : Tree k ring) : Tree (GlitchedOS.kworkerExit k) ring := by
  rw [GlitchedOS.kworkerExit]
  split
  · exact h
  rename_i hworker
  have hworker : k.currentTask.isKworker = true := by simpa using hworker
  have hnext : ∀ {α : Type} (π : Task → α), (∀ x s, π { x with state := s } = π x) →
      ∀ u, π ((k.modifyCurrent fun x => { x with state := .deleted }).tasks u) =
        π (k.tasks u) := fun π hπ u => Kernel.modifyTask_proj π _ _ _ (hπ _ _)
  have hother : ∀ u, u ≠ k.current → ((k.modifyCurrent fun x =>
      { x with state := .deleted }).tasks u) = k.tasks u := fun u hu =>
    Kernel.modifyTask_ne k _ hu
  have huser : ∀ u, (k.tasks u).isKworker = false → u ≠ k.current := by
    rintro u hu rfl
    cases hu.symm.trans hworker
  have hchild : ∀ p c, IsChild k ring p c ↔ IsChild (k.modifyCurrent fun x =>
      { x with state := .deleted }) ring p c := by
    have hkworker := hnext Task.isKworker fun _ _ => rfl
    have hparent := hnext Task.parent fun _ _ => rfl
    refine fun p c => ⟨fun hc => ⟨hc.mem, (hkworker c).trans hc.user, hc.ne_init,
      (hparent c).trans hc.parent⟩, fun hc => ⟨hc.mem,
      (hkworker c).symm.trans hc.user, hc.ne_init,
      (hparent c).symm.trans hc.parent⟩⟩
  refine Tree.setSwitching ⟨?_, ⟨fun c hc hu hi => ?_, fun p hp hpar => ?_⟩,
    ?_, fun t ht c hw => ?_, ?_, ?_⟩ true
  · exact h.order.congr (fun u _ => hnext Task.next (fun _ _ => rfl) u)
      (Finset.Subset.refl _) rfl rfl
  · rw [hnext Task.isKworker fun _ _ => rfl] at hu
    obtain ⟨p, hp, heq, hpar⟩ := h.family.parent c hc hu hi
    refine ⟨p, hp, ?_, ?_, ?_⟩
    · rw [hother c (huser c hu)]
      exact heq
    · rw [hother p (huser p hpar.user)]
      exact hpar.user
    · exact hpar.alive.congr fun hd => by rwa [hother p (huser p hpar.user)] at hd
  · have hpcur : p ≠ k.current := by
      rintro rfl
      rcases hpar with halive | hinit
      · refine halive (Or.inr ?_)
        rw [Kernel.modifyCurrent, Kernel.modifyTask_self]
      · exact huser _ h.init hinit.symm
    rw [Keeper, hother p hpcur] at hpar
    obtain ⟨kids, stop, hkids⟩ := h.family.kids p hp hpar
    refine ⟨kids, stop, ⟨?_, hkids.nodup, fun c => (hkids.mem c).trans (hchild p c),
      ?_⟩⟩
    · rw [hother p hpcur]
      exact hkids.segment.congr fun u _ => hnext Task.nextSibling (fun _ _ => rfl) u
    · rw [hother p hpcur]
      exact hkids.alive
  · refine h.pids.congr (fun u _ => hnext Task.pid (fun _ _ => rfl) u)
      (hnext Task.pid (fun _ _ => rfl) _) (fun u _ hd => ?_) (le_refl _)
    by_cases hu : u = k.current
    · subst hu
      rw [Kernel.modifyCurrent, Kernel.modifyTask_self]
    · rw [hother u hu]
      exact hd
  · have htcur : t ≠ k.current := by
      rintro rfl
      rw [Kernel.modifyCurrent, Kernel.modifyTask_self] at hw
      cases hw.state
    rw [hother t htcur] at hw
    obtain ⟨hc, hd⟩ := h.waiters t ht c hw
    refine ⟨(hchild t c).mp hc, ?_⟩
    rw [hother c (huser c hc.user)]
    exact hd
  · exact (hnext Task.isKworker (fun _ _ => rfl) _).trans h.init
  · exact (hnext Task.parent (fun _ _ => rfl) _).trans h.initParent

/-! ### New tasks -/

section New

variable {new p : Nat}

theorem Tree.allocTask (h : Tree k ring) (phys : PhysMem) (x : Task)
    (hnew : new ∉ ring) (hidle : new ≠ idleTask) :
    Tree (GlitchedOS.allocTask k new phys x) ring := by
  refine h.of_ring (fun t ht => allocTask_ne k phys x ?_)
    (by rw [allocTask_ne k phys x hidle.symm]) (Finset.subset_insert _ _) h.order.rr
    h.order.current (le_refl _)
  rintro rfl
  exact hnew ht

theorem Pids.insert (h : Pids k ring) (hring : ∀ t, t ∈ ring' ↔ t = new ∨ t ∈ ring)
    (hpid : ∀ t ∈ ring, (k'.tasks t).pid = (k.tasks t).pid)
    (hidle : (k'.tasks idleTask).pid = (k.tasks idleTask).pid)
    (hdeleted : ∀ t ∈ ring, (k.tasks t).state = .deleted →
      (k'.tasks t).state = .deleted) (hlast : k.lastPid ≤ k'.lastPid)
    (hnew : 0 < (k'.tasks new).pid ∧ (k'.tasks new).pid ≤ k'.lastPid)
    (hfresh : ∀ t ∈ ring, (k'.tasks t).state ≠ .deleted →
      (k'.tasks t).pid ≠ (k'.tasks new).pid) : Pids k' ring' := by
  have hold := h.congr hpid hidle hdeleted hlast
  refine ⟨fun t ht u hu htd hud heq => ?_, fun t ht => ?_, hold.idle⟩
  · rcases (hring t).mp ht with rfl | ht
    · rcases (hring u).mp hu with rfl | hu
      · rfl
      · exact absurd heq.symm (hfresh u hu hud)
    · rcases (hring u).mp hu with rfl | hu
      · exact absurd heq (hfresh t ht htd)
      · exact hold.distinct t ht u hu htd hud heq
  · rcases (hring t).mp ht with rfl | ht
    · exact hnew
    · exact hold.bound t ht

/-- A new task linked behind its parent: everything but the process numbers. -/
theorem Tree.linkTask (h : Tree k ring) (hp : p ∈ ring) (hpar : Parental k p)
    (hnew : new ∉ ring) (hallocated : new ∈ k.allocated) (hidle : new ≠ idleTask)
    (huser : (k.tasks new).isKworker = false)
    (hready : (k.tasks new).state = .ready) :
    ∃ ring', (∀ t, t ∈ ring' ↔ t = new ∨ t ∈ ring) ∧
      Ring (GlitchedOS.linkTask k new p) ring' ∧
      Family (GlitchedOS.linkTask k new p) ring' ∧
      Waiters (GlitchedOS.linkTask k new p) ring' := by
  have hpne : new ≠ p := fun heq => hnew (heq ▸ hp)
  have hne : ∀ t ∈ ring, t ≠ new := fun t ht heq => hnew (heq ▸ ht)
  have honly := LinksOnly.linkTask k new p
  have hinsert : ∃ ring', Ring (GlitchedOS.linkTask k new p) ring' ∧
      ∀ t, t ∈ ring' ↔ t = new ∨ t ∈ ring := by
    refine h.order.insert hp hnew hidle ?_ ?_ (fun t ht htp => ?_)
      (Finset.Subset.refl _) hallocated rfl rfl
    · rw [linkTask_next k hpne, if_neg hpne.symm, if_pos rfl]
    · rw [linkTask_next k hpne, if_pos rfl]
    · rw [linkTask_next k hpne, if_neg (hne t ht), if_neg htp]
  obtain ⟨ring', horder, hring⟩ := hinsert
  refine ⟨ring', hring, horder, h.family.link hp hpar hnew
    (fun heq => hnew (heq ▸ h.order.init_mem)) huser hring, fun t ht c hw => ?_⟩
  have hw₀ : Waits (k.tasks t) c :=
    ⟨(honly.proj Task.state (fun _ _ => rfl) t).symm.trans hw.state,
      (honly.proj Task.blockReason (fun _ _ => rfl) t).symm.trans hw.reason,
      (honly.proj Task.blockedProcess (fun _ _ => rfl) t).symm.trans hw.child⟩
  rcases (hring t).mp ht with rfl | ht
  · cases hready.symm.trans hw₀.state
  · obtain ⟨hc, hd⟩ := h.waiters t ht c hw₀
    refine ⟨⟨(hring c).mpr (Or.inr hc.mem),
      (honly.proj Task.isKworker (fun _ _ => rfl) c).trans hc.user, hc.ne_init, ?_⟩,
      fun hd' => hd ((honly.proj Task.state (fun _ _ => rfl) c).symm.trans hd')⟩
    rw [linkTask_parent k hpne, if_neg (hne c hc.mem)]
    exact hc.parent

theorem Parental.of_alive (huser : (k.tasks p).isKworker = false)
    (halive : ¬(k.tasks p).Dead) : Parental k p := ⟨huser, Or.inl halive⟩

theorem forkLink_pid (k : Kernel) (new u : Nat) :
    ((forkLink k new).tasks u).pid =
      if u = new then k.lastPid + 1 else (k.tasks u).pid := by
  have hlink := (LinksOnly.linkTask k new k.current).proj Task.pid
    (fun _ _ => rfl) u
  simp only [forkLink, Kernel.modifyCurrent]
  rw [Kernel.modifyTask_proj Task.pid _ _ _ rfl, Kernel.modifyTask_apply]
  split
  · rfl
  · exact hlink

theorem forkLink_fields (k : Kernel) (new : Nat) :
    (forkLink k new).allocated = k.allocated ∧ (forkLink k new).rr = k.rr ∧
      (forkLink k new).current = k.current ∧
      (forkLink k new).lastPid = k.lastPid + 1 :=
  ⟨rfl, rfl, rfl, rfl⟩

theorem Tree.forkLink (h : Tree k ring) (hcur : k.current ∈ ring)
    (hpar : Parental k k.current) (halive : ¬k.currentTask.Dead)
    (hnew : new ∉ ring) (hallocated : new ∈ k.allocated) (hidle : new ≠ idleTask)
    (huser : (k.tasks new).isKworker = false)
    (hready : (k.tasks new).state = .ready) :
    ∃ ring', (∀ t, t ∈ ring' ↔ t = new ∨ t ∈ ring) ∧
      Tree (GlitchedOS.forkLink k new) ring' := by
  obtain ⟨ring', hring, horder, hfamily, hwaiters⟩ :=
    h.linkTask hcur hpar hnew hallocated hidle huser hready
  have hne : ∀ t ∈ ring, t ≠ new := fun t ht heq => hnew (heq ▸ ht)
  have honly := LinksOnly.linkTask k new k.current
  have hlinks := forkLink_proj Task.links (fun _ _ _ _ => rfl) k new
  have hkworker := forkLink_proj Task.isKworker (fun _ _ _ _ => rfl) k new
  have hstate := forkLink_state k new
  have hlinked := honly.proj Task.state fun _ _ => rfl
  have hdead : ∀ u, ((GlitchedOS.forkLink k new).tasks u).Dead ↔
      ((GlitchedOS.linkTask k new k.current).tasks u).Dead := by
    intro u
    rw [Task.Dead, Task.Dead, hstate, hlinked]
    split
    · rename_i heq
      subst heq
      exact iff_of_false (by simp) halive
    · exact Iff.rfl
  have hdeleted : ∀ u, ((GlitchedOS.forkLink k new).tasks u).state = .deleted →
      (k.tasks u).state = .deleted := by
    intro u hd
    rw [hstate] at hd
    split at hd
    · cases hd
    · exact hd
  refine ⟨ring', hring, ⟨?_, ?_, ?_, ?_, ?_, ?_⟩⟩
  · exact horder.congr (fun u _ => congrArg Links.next (hlinks u))
      (Finset.Subset.refl _) rfl rfl
  · exact hfamily.congr (fun u _ => hkworker u)
      (fun u _ => congrArg Links.parent (hlinks u))
      (fun u _ => congrArg Links.nextSibling (hlinks u))
      (fun u _ => congrArg Links.child (hlinks u)) fun u _ => hdead u
  · have hlast : (GlitchedOS.forkLink k new).lastPid = k.lastPid + 1 := rfl
    refine h.pids.insert hring (fun t ht => ?_) ?_ (fun t ht hd => ?_) ?_ ?_
      fun t ht _ => ?_
    · rw [forkLink_pid, if_neg (hne t ht)]
    · rw [forkLink_pid, if_neg hidle.symm]
    · rw [hstate, if_neg]
      · exact hd
      · rintro rfl
        exact halive (Or.inr hd)
    · rw [hlast]
      omega
    · have hinit := h.pids.bound _ h.order.init_mem
      rw [forkLink_pid, if_pos rfl, hlast]
      omega
    · have hbound := h.pids.bound t ht
      rw [forkLink_pid, forkLink_pid, if_neg (hne t ht), if_pos rfl]
      omega
  · refine hwaiters.congr (fun u _ => hkworker u)
      (fun u _ => congrArg Links.parent (hlinks u)) fun t ht c hw => ?_
    have hwstate := hw.state
    rw [hstate] at hwstate
    split at hwstate
    · cases hwstate
    refine ⟨⟨(hlinked t).trans hwstate, ?_, ?_⟩, fun hd => ?_⟩
    · exact (forkLink_proj Task.blockReason (fun _ _ _ _ => rfl) k new t).symm.trans
        hw.reason
    · exact (forkLink_proj Task.blockedProcess (fun _ _ _ _ => rfl) k new
        t).symm.trans hw.child
    · exact (hlinked c).trans (hdeleted c hd)
  · refine (hkworker _).trans ((honly.proj Task.isKworker (fun _ _ => rfl) _).trans
      h.init)
  · refine (congrArg Links.parent (hlinks _)).trans ?_
    show ((GlitchedOS.linkTask k new k.current).tasks initTask).parent = _
    rw [linkTask_parent k (hne _ hcur).symm, if_neg (hne _ h.order.init_mem)]
    exact h.initParent

theorem Tree.fork (h : Tree k ring) (hl : Lively k)
    (huser : k.currentTask.isKworker = false) (halive : ¬k.currentTask.Dead)
    (hnew : new ∉ k.allocated) (hrun : GlitchedOS.fork k new = .ok k') :
    KeepsTree k ring k' ∧ k'.switching = true := by
  have hcur := h.current_mem hl huser
  have hidle : new ≠ idleTask := fun heq => hnew (heq ▸ hl.apart.allocated)
  have hout : new ∉ ring := fun hmem => hnew (h.order.allocated new hmem).1
  obtain ⟨cr3, phys, k₁, -, hk₁, rfl⟩ := fork_ok hrun
  have hattrs := AttrsOnly.of_filesOnly (.addRefs k.currentTask.fdTable
    (GlitchedOS.allocTask k new phys
      { k.currentTask with state := .ready, cr3 := cr3 }))
  rw [← hk₁] at hattrs
  clear hk₁
  have h₁ := (h.allocTask phys { k.currentTask with
    state := .ready, cr3 := cr3 } hout hidle).of_attrsOnly hattrs
  have hq := Quiet.of_attrsOnly hattrs
  have hcurrent : k₁.current = k.current := hq.current
  have halloc : k₁.allocated = insert new k.allocated := hq.allocated
  have hne : k.current ≠ new := fun heq => hout (heq ▸ hcur)
  have huser₁ : (k₁.tasks k₁.current).isKworker = false := by
    rw [hq.kworker, hcurrent, allocTask_ne k phys _ hne]
    exact huser
  have halive₁ : ¬(k₁.tasks k₁.current).Dead := fun hd => by
    rw [(hq.life _).dead, hcurrent, allocTask_ne k phys _ hne] at hd
    exact halive hd
  obtain ⟨ring', hring, htree⟩ := h₁.forkLink (hcurrent ▸ hcur)
    (.of_alive huser₁ halive₁) halive₁ hout
    (by rw [halloc]; exact Finset.mem_insert_self _ _) hidle
    (by rw [hq.kworker, allocTask_new]; exact huser)
    (by rw [hattrs.proj Task.state fun _ _ => rfl, allocTask_new])
  refine ⟨⟨ring', htree, fun u hu => ?_, fun u hu => ?_⟩, rfl⟩
  · exact ((hring u).mp hu).symm.imp_right fun (heq : u = new) =>
      heq ▸ hnew
  obtain ⟨hmem, huidle, hunot⟩ := hu
  rw [(forkLink_fields k₁ new).1, halloc, Finset.mem_insert] at hmem
  refine ⟨hmem.resolve_left ?_, huidle, fun hu => hunot ((hring u).mpr (Or.inr hu))⟩
  exact fun heq => hunot ((hring u).mpr (Or.inl heq))

end New

end GlitchedOS
