/-
The task ring and the process tree.  Following `next` from `init_task` visits the
tasks, and every task that is not a kernel worker hangs in the list of children
of its parent.  A task that has exited, or has called `execve`, keeps a stale
list, so only living tasks have a list that is right; `init_task` is never
freed and adopts orphans even after it has called `execve`.
-/
import GlitchedOS.Process.Zombie
import GlitchedOS.Lib.Chain

namespace GlitchedOS

variable {k k' k'' : Kernel} {ring ring' : List Nat}

/-- The task after `t`, up to the one before `init_task`. -/
def ringNext (k : Kernel) (t : Nat) : Option Nat :=
  if (k.tasks t).next = initTask then none else some (k.tasks t).next

structure Ring (k : Kernel) (ring : List Nat) : Prop where
  chain : Chain (ringNext k) (some initTask) ring
  allocated : ∀ t ∈ ring, t ∈ k.allocated ∧ t ≠ idleTask
  rr : k.rr ∈ ring
  current : k.current ∈ ring ∨ k.current = idleTask

/-- A task of the ring with its place in the list of children of `p`. -/
structure IsChild (k : Kernel) (ring : List Nat) (p c : Nat) : Prop where
  mem : c ∈ ring
  user : (k.tasks c).isKworker = false
  ne_init : c ≠ initTask
  parent : (k.tasks c).parent = some p

/-- A task whose list of children is kept. -/
def Keeper (k : Kernel) (p : Nat) : Prop := ¬(k.tasks p).Dead ∨ p = initTask

/-- A task that others may have as their parent. -/
structure Parental (k : Kernel) (p : Nat) : Prop where
  user : (k.tasks p).isKworker = false
  alive : Keeper k p

theorem Keeper.congr {p : Nat} (h : Keeper k p)
    (hdead : (k'.tasks p).Dead → (k.tasks p).Dead) : Keeper k' p :=
  h.imp_left (mt hdead)

/-- The list of children of `p`, up to the pointer `stop`. -/
structure Kids (k : Kernel) (ring : List Nat) (p : Nat) (kids : List Nat)
    (stop : Option Nat) : Prop where
  segment : Segment (fun t => (k.tasks t).nextSibling) (k.tasks p).child kids
    stop
  nodup : kids.Nodup
  mem : ∀ c, c ∈ kids ↔ IsChild k ring p c
  alive : ¬(k.tasks p).Dead → stop = none

/-- The process tree on the tasks of the ring. -/
structure Family (k : Kernel) (ring : List Nat) : Prop where
  parent : ∀ c ∈ ring, (k.tasks c).isKworker = false → c ≠ initTask →
    ∃ p ∈ ring, (k.tasks c).parent = some p ∧ Parental k p
  kids : ∀ p ∈ ring, Keeper k p → ∃ kids stop, Kids k ring p kids stop

/-- Process numbers: no two tasks share one, and new ones are larger. -/
structure Pids (k : Kernel) (ring : List Nat) : Prop where
  distinct : ∀ t ∈ ring, ∀ u ∈ ring, (k.tasks t).state ≠ .deleted →
    (k.tasks u).state ≠ .deleted → (k.tasks t).pid = (k.tasks u).pid → t = u
  bound : ∀ t ∈ ring, 0 < (k.tasks t).pid ∧ (k.tasks t).pid ≤ k.lastPid
  idle : (k.tasks idleTask).pid = 0

/-- The task is blocked until something happens to the child `c`. -/
structure Waits (x : Task) (c : Nat) : Prop where
  state : x.state = .blocked
  reason : x.blockReason = .waitpid
  child : x.blockedProcess = some c

/-- A task waits for children of its own only, and none of them is deleted. -/
def Waiters (k : Kernel) (ring : List Nat) : Prop :=
  ∀ t ∈ ring, ∀ c, Waits (k.tasks t) c →
    IsChild k ring t c ∧ (k.tasks c).state ≠ .deleted

/-- The ring and the tree are in order. -/
structure Tree (k : Kernel) (ring : List Nat) : Prop where
  order : Ring k ring
  family : Family k ring
  pids : Pids k ring
  waiters : Waiters k ring
  init : (k.tasks initTask).isKworker = false
  initParent : (k.tasks initTask).parent = some initTask

/-- The running task is not blocked. -/
def Awake (k : Kernel) : Prop :=
  k.switching = false → k.currentTask.state ≠ .blocked

theorem Ring.init_mem (h : Ring k ring) : initTask ∈ ring := by
  have hchain := h.chain
  cases ring with
  | nil => cases hchain
  | cons a rest =>
      obtain rfl := Option.some.inj hchain.1
      exact List.mem_cons_self

theorem Tree.parental_init (h : Tree k ring) : Parental k initTask :=
  ⟨h.init, Or.inr rfl⟩

/-! ### Operations that move no task -/

theorem Ring.congr (h : Ring k ring)
    (hnext : ∀ t ∈ ring, (k'.tasks t).next = (k.tasks t).next)
    (hallocated : k.allocated ⊆ k'.allocated) (hrr : k'.rr = k.rr)
    (hcurrent : k'.current = k.current) : Ring k' ring where
  chain := h.chain.congr fun t ht => by rw [ringNext, ringNext, hnext t ht]
  allocated := fun t ht => ⟨hallocated (h.allocated t ht).1, (h.allocated t ht).2⟩
  rr := hrr ▸ h.rr
  current := hcurrent ▸ h.current

theorem Family.congr (h : Family k ring)
    (hkworker : ∀ t ∈ ring, (k'.tasks t).isKworker = (k.tasks t).isKworker)
    (hparent : ∀ t ∈ ring, (k'.tasks t).parent = (k.tasks t).parent)
    (hsibling : ∀ t ∈ ring, (k'.tasks t).nextSibling = (k.tasks t).nextSibling)
    (hchild : ∀ t ∈ ring, (k'.tasks t).child = (k.tasks t).child)
    (hdead : ∀ t ∈ ring, (k'.tasks t).Dead ↔ (k.tasks t).Dead) :
    Family k' ring := by
  have hmem : ∀ p c, IsChild k' ring p c ↔ IsChild k ring p c := by
    intro p c
    constructor
    · exact fun h => ⟨h.mem, (hkworker c h.mem).symm.trans h.user, h.ne_init,
        (hparent c h.mem).symm.trans h.parent⟩
    · exact fun h => ⟨h.mem, (hkworker c h.mem).trans h.user, h.ne_init,
        (hparent c h.mem).trans h.parent⟩
  refine ⟨fun c hc huser hne => ?_, fun p hp hpar => ?_⟩
  · obtain ⟨p, hp, heq, hpar⟩ :=
      h.parent c hc ((hkworker c hc).symm.trans huser) hne
    exact ⟨p, hp, (hparent c hc).trans heq, (hkworker p hp).trans hpar.user,
      hpar.alive.congr (hdead p hp).mp⟩
  · obtain ⟨kids, stop, hkids⟩ := h.kids p hp (hpar.congr (hdead p hp).mpr)
    refine ⟨kids, stop, ⟨?_, hkids.nodup, ?_, ?_⟩⟩
    · rw [hchild p hp]
      exact hkids.segment.congr fun c hc => hsibling c ((hkids.mem c).mp hc).mem
    · exact fun c => (hkids.mem c).trans (hmem p c).symm
    · exact fun halive => hkids.alive fun hd => halive ((hdead p hp).mpr hd)

theorem Pids.congr (h : Pids k ring)
    (hpid : ∀ t ∈ ring, (k'.tasks t).pid = (k.tasks t).pid)
    (hidle : (k'.tasks idleTask).pid = (k.tasks idleTask).pid)
    (hdeleted : ∀ t ∈ ring, (k.tasks t).state = .deleted →
      (k'.tasks t).state = .deleted) (hlast : k.lastPid ≤ k'.lastPid) :
    Pids k' ring where
  distinct := by
    intro t ht u hu htd hud heq
    rw [hpid t ht, hpid u hu] at heq
    exact h.distinct t ht u hu (fun hd => htd (hdeleted t ht hd))
      (fun hd => hud (hdeleted u hu hd)) heq
  bound := fun t ht => by
    rw [hpid t ht]
    exact ⟨(h.bound t ht).1, (h.bound t ht).2.trans hlast⟩
  idle := hidle.trans h.idle

/-- No task starts to wait, and none that is waited for is deleted. -/
theorem Waiters.congr (h : Waiters k ring)
    (hkworker : ∀ t ∈ ring, (k'.tasks t).isKworker = (k.tasks t).isKworker)
    (hparent : ∀ t ∈ ring, (k'.tasks t).parent = (k.tasks t).parent)
    (hwaits : ∀ t ∈ ring, ∀ c, Waits (k'.tasks t) c → Waits (k.tasks t) c ∧
      ((k'.tasks c).state = .deleted → (k.tasks c).state = .deleted)) :
    Waiters k' ring := by
  intro t ht c hw
  obtain ⟨hw, hdel⟩ := hwaits t ht c hw
  obtain ⟨hc, hne⟩ := h t ht c hw
  refine ⟨⟨hc.mem, ?_, hc.ne_init, ?_⟩, fun hd => hne (hdel hd)⟩
  · exact (hkworker c hc.mem).trans hc.user
  · exact (hparent c hc.mem).trans hc.parent

theorem Tree.of_quiet (h : Tree k ring) (hq : Quiet k k')
    (hwaits : ∀ t ∈ ring, ∀ c, Waits (k'.tasks t) c → Waits (k.tasks t) c ∧
      ((k'.tasks c).state = .deleted → (k.tasks c).state = .deleted)) :
    Tree k' ring where
  order := h.order.congr (fun t _ => congrArg Links.next (hq.links t))
    hq.allocated.ge hq.rr hq.current
  family := h.family.congr (fun t _ => hq.kworker t)
    (fun t _ => congrArg Links.parent (hq.links t))
    (fun t _ => congrArg Links.nextSibling (hq.links t))
    (fun t _ => congrArg Links.child (hq.links t)) fun t _ => (hq.life t).dead
  pids := h.pids.congr (fun t _ => hq.pid t) (hq.pid _)
    (fun t _ => (hq.life t).deleted) hq.lastPid.ge
  waiters := h.waiters.congr (fun t _ => hq.kworker t)
    (fun t _ => congrArg Links.parent (hq.links t)) hwaits
  init := (hq.kworker _).trans h.init
  initParent := (congrArg Links.parent (hq.links _)).trans h.initParent

/-- An operation that keeps what tasks wait for, and their states. -/
theorem Tree.of_states (h : Tree k ring) (hq : Quiet k k')
    (hstate : ∀ t, (k'.tasks t).state = (k.tasks t).state)
    (hreason : ∀ t, (k'.tasks t).blockReason = (k.tasks t).blockReason)
    (hblocked : ∀ t, (k'.tasks t).blockedProcess = (k.tasks t).blockedProcess) :
    Tree k' ring := by
  refine h.of_quiet hq fun t _ c hw => ⟨⟨?_, ?_, ?_⟩, ?_⟩
  · exact (hstate t).symm.trans hw.state
  · exact (hreason t).symm.trans hw.reason
  · exact (hblocked t).symm.trans hw.child
  · exact (hstate c).symm.trans

theorem Tree.of_attrsOnly (h : Tree k ring) (hattrs : AttrsOnly k k') :
    Tree k' ring :=
  h.of_states (.of_attrsOnly hattrs) (hattrs.proj Task.state fun _ _ => rfl)
    (hattrs.proj Task.blockReason fun _ _ => rfl)
    (hattrs.proj Task.blockedProcess fun _ _ => rfl)

/-- A write to a task after which it waits for nothing new. -/
theorem Tree.modifyTask (h : Tree k ring) (t : Nat) {f : Task → Task}
    (hlife : LifeKept (k.tasks t) (f (k.tasks t)))
    (hf : ∀ x, (f x).isKworker = x.isKworker ∧ (f x).pid = x.pid ∧
      (f x).links = x.links)
    (hwaits : ∀ c, Waits (f (k.tasks t)) c → Waits (k.tasks t) c)
    (hdel : (f (k.tasks t)).state = .deleted → (k.tasks t).state = .deleted ∨
      ∀ u ∈ ring, ¬Waits (k.tasks u) t) : Tree (k.modifyTask t f) ring := by
  refine h.of_quiet (.modifyTask k t hlife hf) fun u hu c hw => ?_
  have hold : Waits (k.tasks u) c := by
    rw [Kernel.modifyTask_apply] at hw
    split at hw
    · rename_i heq
      subst heq
      exact hwaits c hw
    · exact hw
  refine ⟨hold, fun hd => ?_⟩
  rw [Kernel.modifyTask_apply] at hd
  split at hd
  · rename_i heq
    subst heq
    exact (hdel hd).resolve_right fun hnone => hnone u hu hold
  · exact hd

/-! ### New tasks -/

theorem Ring.insert (h : Ring k ring) {p new : Nat} (hp : p ∈ ring)
    (hnew : new ∉ ring) (hidle : new ≠ idleTask)
    (hnextp : (k'.tasks p).next = new)
    (hnextnew : (k'.tasks new).next = (k.tasks p).next)
    (hnext : ∀ t ∈ ring, t ≠ p → (k'.tasks t).next = (k.tasks t).next)
    (hallocated : k.allocated ⊆ k'.allocated) (hin : new ∈ k'.allocated)
    (hrr : k'.rr = k.rr) (hcurrent : k'.current = k.current) :
    ∃ ring', Ring k' ring' ∧ ∀ t, t ∈ ring' ↔ t = new ∨ t ∈ ring := by
  obtain ⟨before, after, rfl⟩ := List.append_of_mem hp
  have hmem : ∀ t, t ∈ before ++ p :: new :: after ↔
      t = new ∨ t ∈ before ++ p :: after := by
    intro t
    simp only [List.mem_append, List.mem_cons]
    constructor
    · rintro (h | h | h | h) <;> simp [h]
    · rintro (h | h | h | h) <;> simp [h]
  obtain ⟨hbefore, hafter⟩ := h.chain.ne_of_split
  refine ⟨before ++ p :: new :: after, ⟨?_, ?_, ?_, ?_⟩, hmem⟩
  · refine h.chain.insert_after ?_ ?_ fun t ht => ?_
    · rw [ringNext, hnextp, if_neg]
      exact fun heq => hnew (heq ▸ h.init_mem)
    · rw [ringNext, ringNext, hnextnew]
    · have htp : t ≠ p := by
        rcases List.mem_append.mp ht with ht | ht
        · exact hbefore t ht
        · exact hafter t ht
      have htring : t ∈ before ++ p :: after := by
        rcases List.mem_append.mp ht with ht | ht
        · exact List.mem_append_left _ ht
        · exact List.mem_append_right _ (List.mem_cons_of_mem p ht)
      rw [ringNext, ringNext, hnext t htring htp]
  · intro t ht
    rcases (hmem t).mp ht with rfl | ht
    · exact ⟨hin, hidle⟩
    · exact ⟨hallocated (h.allocated t ht).1, (h.allocated t ht).2⟩
  · exact (hmem _).mpr (Or.inr (hrr ▸ h.rr))
  · rw [hcurrent]
    exact h.current.imp_left fun hc => (hmem _).mpr (Or.inr hc)

section Link

variable {new p : Nat}

theorem linkTask_next (k : Kernel) (hne : new ≠ p) (u : Nat) :
    ((linkTask k new p).tasks u).next =
      if u = new then (k.tasks p).next
      else if u = p then new else (k.tasks u).next := by
  by_cases hu : u = new
  · subst hu
    simp [linkTask, Kernel.modifyTask_apply, hne]
  · by_cases hup : u = p
    · subst hup
      simp [linkTask, Kernel.modifyTask_apply, hu]
    · simp [linkTask, Kernel.modifyTask_apply, hu, hup]

theorem linkTask_parent (k : Kernel) (hne : new ≠ p) (u : Nat) :
    ((linkTask k new p).tasks u).parent =
      if u = new then some p else (k.tasks u).parent := by
  by_cases hu : u = new
  · subst hu
    simp [linkTask, Kernel.modifyTask_apply, hne]
  · by_cases hup : u = p
    · subst hup
      simp [linkTask, Kernel.modifyTask_apply, hu]
    · simp [linkTask, Kernel.modifyTask_apply, hu, hup]

theorem linkTask_nextSibling (k : Kernel) (hne : new ≠ p) (u : Nat) :
    ((linkTask k new p).tasks u).nextSibling =
      if u = new then (k.tasks p).child else (k.tasks u).nextSibling := by
  by_cases hu : u = new
  · subst hu
    simp [linkTask, Kernel.modifyTask_apply, hne, hne.symm]
  · by_cases hup : u = p
    · subst hup
      simp [linkTask, Kernel.modifyTask_apply, hu]
    · simp [linkTask, Kernel.modifyTask_apply, hu, hup]

theorem linkTask_child (k : Kernel) (hne : new ≠ p) (u : Nat) :
    ((linkTask k new p).tasks u).child =
      if u = new then none
      else if u = p then some new else (k.tasks u).child := by
  by_cases hu : u = new
  · subst hu
    simp [linkTask, Kernel.modifyTask_apply, hne]
  · by_cases hup : u = p
    · subst hup
      simp [linkTask, Kernel.modifyTask_apply, hu]
    · simp [linkTask, Kernel.modifyTask_apply, hu, hup]

end Link

/-- A new task as the first child of `p`. -/
theorem Family.link (h : Family k ring) {p new : Nat} (hp : p ∈ ring)
    (hpar : Parental k p) (hnew : new ∉ ring) (hinit : new ≠ initTask)
    (huser : (k.tasks new).isKworker = false)
    (hring : ∀ t, t ∈ ring' ↔ t = new ∨ t ∈ ring) :
    Family (linkTask k new p) ring' := by
  have hne : ∀ t ∈ ring, t ≠ new := fun t ht heq => hnew (heq ▸ ht)
  have hpne : new ≠ p := (hne p hp).symm
  have honly := LinksOnly.linkTask k new p
  have hkworker := honly.proj Task.isKworker fun _ _ => rfl
  have hdead : ∀ t, ((linkTask k new p).tasks t).Dead ↔ (k.tasks t).Dead :=
    SameLife.of_linksOnly honly
  have hparent := linkTask_parent k hpne
  have hsibling := linkTask_nextSibling k hpne
  have hchild := linkTask_child k hpne
  have hparental : ∀ q, Parental k q → Parental (linkTask k new p) q :=
    fun q hpar => ⟨(hkworker q).trans hpar.user,
      hpar.alive.congr (hdead q).mp⟩
  -- the children of `q`: those it had, and `new` when `q` is `p`
  have hisChild : ∀ q c, IsChild (linkTask k new p) ring' q c ↔
      (q = p ∧ c = new) ∨ IsChild k ring q c := by
    intro q c
    constructor
    · rintro ⟨hmem, hu, hi, hpa⟩
      rw [hparent] at hpa
      split at hpa
      · exact Or.inl ⟨(Option.some.inj hpa).symm, ‹_›⟩
      · exact Or.inr ⟨((hring c).mp hmem).resolve_left ‹_›,
          (hkworker c).symm.trans hu, hi, hpa⟩
    · rintro (⟨rfl, rfl⟩ | hc)
      · exact ⟨(hring _).mpr (Or.inl rfl), (hkworker _).trans huser, hinit,
          by rw [hparent, if_pos rfl]⟩
      · exact ⟨(hring _).mpr (Or.inr hc.mem), (hkworker _).trans hc.user,
          hc.ne_init, by rw [hparent, if_neg (hne c hc.mem)]; exact hc.parent⟩
  refine ⟨fun c hc hu hi => ?_, fun q hq hqpar => ?_⟩
  · rw [hparent]
    rcases (hring c).mp hc with rfl | hc
    · exact ⟨p, (hring p).mpr (Or.inr hp), if_pos rfl, hparental p hpar⟩
    · obtain ⟨q, hq, heq, hqpar⟩ :=
        h.parent c hc ((hkworker c).symm.trans hu) hi
      exact ⟨q, (hring q).mpr (Or.inr hq), by rw [if_neg (hne c hc), heq],
        hparental q hqpar⟩
  rcases (hring q).mp hq with rfl | hq
  · refine ⟨[], none, ⟨by rw [hchild, if_pos rfl]; rfl, List.nodup_nil, ?_,
      fun _ => rfl⟩⟩
    intro c
    rw [hisChild]
    constructor
    · intro hc
      cases hc
    · rintro (⟨heq, -⟩ | hc)
      · exact absurd heq hpne
      · -- a parent is in the ring, and `q` is new
        obtain ⟨r, hr, heq, -⟩ := h.parent c hc.mem hc.user hc.ne_init
        exact absurd (Option.some.inj (heq.symm.trans hc.parent)) (hne r hr)
  · obtain ⟨kids, stop, hkids⟩ := h.kids q hq (hqpar.congr (hdead q).mpr)
    have hkne : ∀ c ∈ kids, c ≠ new := fun c hc => hne c ((hkids.mem c).mp hc).mem
    have hseg : Segment (fun t => ((linkTask k new p).tasks t).nextSibling)
        (k.tasks q).child kids stop :=
      hkids.segment.congr fun c hc => (hsibling c).trans (if_neg (hkne c hc))
    have hstop : ¬((linkTask k new p).tasks q).Dead → stop = none := fun hd =>
      hkids.alive fun hd' => hd ((hdead q).mpr hd')
    by_cases hqp : q = p
    · subst hqp
      refine ⟨new :: kids, stop, ⟨⟨?_, ?_⟩, ?_, ?_, hstop⟩⟩
      · rw [hchild, if_neg (hne q hq), if_pos rfl]
      · dsimp only
        rw [hsibling, if_pos rfl]
        exact hseg
      · exact List.nodup_cons.mpr ⟨fun hmem => hkne new hmem rfl, hkids.nodup⟩
      · intro c
        rw [hisChild, List.mem_cons, hkids.mem]
        simp
    · refine ⟨kids, stop, ⟨?_, hkids.nodup, ?_, hstop⟩⟩
      · rw [hchild, if_neg (hne q hq), if_neg hqp]
        exact hseg
      · intro c
        rw [hisChild, hkids.mem]
        simp [hqp]

/-! ### Freeing tasks -/

/-- What taking `t` off the list `kids` of `q` leaves. -/
structure Unlinked (k : Kernel) (q t : Nat) (kids : List Nat) (stop : Option Nat)
    (k' : Kernel) : Prop where
  only : LinksOnly k k'
  next : ∀ u, (k'.tasks u).next = (k.tasks u).next
  parent : ∀ u, (k'.tasks u).parent = (k.tasks u).parent
  child : ∀ u, u ≠ q → (k'.tasks u).child = (k.tasks u).child
  sibling : ∀ u, u ∉ kids → (k'.tasks u).nextSibling = (k.tasks u).nextSibling
  segment : Segment (fun u => (k'.tasks u).nextSibling) (k'.tasks q).child
    (kids.erase t) stop

theorem siblingLoop_unlinked {q t : Nat} {kids : List Nat} {stop : Option Nat}
    (hnodup : kids.Nodup)
    (hseg : Segment (fun u => (k.tasks u).nextSibling) (k.tasks q).child kids
      stop) :
    ∀ {n s : Nat} (before after : List Nat), kids = before ++ s :: after →
      t ∈ after → siblingLoop k t n s = .ok k' → Unlinked k q t kids stop k'
  | 0, _, _, _, _, _, h => by cases h
  | n + 1, s, before, after, hkids, ht, h => by
      cases after with
      | nil => cases ht
      | cons s' rest =>
          subst hkids
          have hnext : (k.tasks s).nextSibling = some s' := hseg.next_eq
          rw [siblingLoop, hnext] at h
          dsimp only at h
          split at h
          swap
          · rename_i hne
            exact siblingLoop_unlinked hnodup hseg (before ++ [s]) rest
              (by simp)
              ((List.mem_cons.mp ht).resolve_left fun heq => hne heq.symm) h
          rename_i heq
          subst heq
          obtain rfl := Except.ok.inj h
          have hs : ∀ u, ((k.modifyTask s fun x =>
              { x with nextSibling := (k.tasks s').nextSibling }).tasks
                u).nextSibling =
              if u = s then (k.tasks s').nextSibling
              else (k.tasks u).nextSibling := by
            intro u
            rw [Kernel.modifyTask_apply]
            split <;> rfl
          have hproj : ∀ {α : Type} (π : Task → α), (∀ x y,
              π { x with nextSibling := y } = π x) → ∀ u, π ((k.modifyTask s
                fun x => { x with nextSibling := (k.tasks s').nextSibling }).tasks
                  u) = π (k.tasks u) := fun π hπ u =>
            k.modifyTask_proj π s u (hπ _ _)
          have herase : (before ++ s :: s' :: rest).erase s' =
              before ++ s :: rest := by
            rw [List.nodup_append] at hnodup
            obtain ⟨-, hright, hdisj⟩ := hnodup
            rw [List.erase_append_right, List.erase_cons_tail,
              List.erase_cons_head]
            · intro hss
              have hss := beq_iff_eq.mp hss
              exact (List.nodup_cons.mp hright).1 (hss ▸ List.mem_cons_self)
            · exact fun hb => hdisj s' hb s'
                (List.mem_cons_of_mem s List.mem_cons_self) rfl
          refine ⟨.modifyTask k s fun _ => rfl,
            hproj Task.next fun _ _ => rfl, hproj Task.parent fun _ _ => rfl,
            fun u _ => hproj Task.child (fun _ _ => rfl) u, fun u hu => ?_, ?_⟩
          · rw [hs, if_neg]
            rintro rfl
            exact hu (List.mem_append_right _ List.mem_cons_self)
          · rw [herase, hproj Task.child fun _ _ => rfl]
            refine hseg.remove_after ((hs s).trans (if_pos rfl)) fun u hu => ?_
            refine (hs u).trans (if_neg ?_)
            rintro rfl
            rw [List.nodup_append] at hnodup
            obtain ⟨-, hright, hdisj⟩ := hnodup
            rcases List.mem_append.mp hu with hu | hu
            · exact hdisj u hu u List.mem_cons_self rfl
            · exact (List.nodup_cons.mp hright).1 (List.mem_cons_of_mem s' hu)

theorem unlinkChild_unlinked {q t fuel : Nat} {kids : List Nat}
    {stop : Option Nat} (hnodup : kids.Nodup)
    (hseg : Segment (fun u => (k.tasks u).nextSibling) (k.tasks q).child kids
      stop) (ht : t ∈ kids) (hparent : (k.tasks t).parent = some q)
    (h : unlinkChild fuel k t = .ok k') : Unlinked k q t kids stop k' := by
  cases kids with
  | nil => cases ht
  | cons s rest =>
      have hfirst : (k.tasks q).child = some s := hseg.1
      rw [unlinkChild, hparent] at h
      dsimp only at h
      rw [hfirst] at h
      split at h
      · rename_i heq
        obtain rfl := Option.some.inj heq
        obtain rfl := Except.ok.inj h
        have hproj : ∀ {α : Type} (π : Task → α), (∀ x y,
            π { x with child := y } = π x) → ∀ u, π ((k.modifyTask q fun x =>
              { x with child := (k.tasks s).nextSibling }).tasks u) =
                π (k.tasks u) := fun π hπ u => k.modifyTask_proj π q u (hπ _ _)
        refine ⟨.modifyTask k q fun _ => rfl, hproj Task.next fun _ _ => rfl,
          hproj Task.parent fun _ _ => rfl, fun u hu => ?_,
          fun u _ => hproj Task.nextSibling (fun _ _ => rfl) u, ?_⟩
        · rw [Kernel.modifyTask_ne _ _ hu]
        · rw [Kernel.modifyTask_self, List.erase_cons_head]
          exact hseg.2.congr fun u _ =>
            hproj Task.nextSibling (fun _ _ => rfl) u
      · rename_i hne
        refine siblingLoop_unlinked hnodup hseg [] _ rfl ?_ h
        exact (List.mem_cons.mp ht).resolve_left fun heq => hne (heq ▸ rfl)

/-- A deleted task taken out of the ring and out of its parent's list. -/
theorem Family.remove (h : Family k ring) {t : Nat} (ht : t ∈ ring)
    (hdead : ¬Keeper k t) (hring : ∀ u, u ∈ ring' ↔ u ∈ ring ∧ u ≠ t)
    (hkworker : ∀ u, (k'.tasks u).isKworker = (k.tasks u).isKworker)
    (hparent : ∀ u, (k'.tasks u).parent = (k.tasks u).parent)
    (hlife : ∀ u, (k'.tasks u).Dead ↔ (k.tasks u).Dead)
    (hlists : ((k.tasks t).isKworker = true ∧
        (∀ u, (k'.tasks u).child = (k.tasks u).child) ∧
        ∀ u, (k'.tasks u).nextSibling = (k.tasks u).nextSibling) ∨
      ∃ k₀ q kids stop, (k.tasks t).parent = some q ∧ Kids k ring q kids stop ∧
        (∀ u, (k₀.tasks u).child = (k.tasks u).child) ∧
        (∀ u, (k₀.tasks u).nextSibling = (k.tasks u).nextSibling) ∧
        Unlinked k₀ q t kids stop k') : Family k' ring' := by
  have hisChild : ∀ q c, IsChild k' ring' q c ↔ IsChild k ring q c ∧ c ≠ t := by
    intro q c
    constructor
    · exact fun h => ⟨⟨((hring c).mp h.mem).1, (hkworker c).symm.trans h.user,
        h.ne_init, (hparent c).symm.trans h.parent⟩, ((hring c).mp h.mem).2⟩
    · exact fun ⟨h, hne⟩ => ⟨(hring c).mpr ⟨h.mem, hne⟩,
        (hkworker c).trans h.user, h.ne_init, (hparent c).trans h.parent⟩
  refine ⟨fun c hc huser hne => ?_, fun q hq hpar => ?_⟩
  · obtain ⟨q, hq, heq, hpar⟩ := h.parent c ((hring c).mp hc).1
      ((hkworker c).symm.trans huser) hne
    refine ⟨q, (hring q).mpr ⟨hq, ?_⟩, (hparent c).trans heq,
      (hkworker q).trans hpar.user, hpar.alive.congr (hlife q).mp⟩
    rintro rfl
    exact hdead hpar.alive
  obtain ⟨kids, stop, hkids⟩ := h.kids q ((hring q).mp hq).1
    (hpar.congr (hlife q).mpr)
  have hstop : ¬(k'.tasks q).Dead → stop = none := fun hd =>
    hkids.alive fun hd' => hd ((hlife q).mpr hd')
  rcases hlists with ⟨hworker, hchild, hsibling⟩ |
    ⟨k₀, q₀, kids₀, stop₀, hq₀, hkids₀, hchild, hsibling, hun⟩
  · refine ⟨kids, stop, ⟨?_, hkids.nodup, fun c => ?_, hstop⟩⟩
    · rw [hchild]
      exact hkids.segment.congr fun c _ => hsibling c
    · rw [hisChild, hkids.mem]
      constructor
      · refine fun hc => ⟨hc, ?_⟩
        rintro rfl
        rw [hc.user] at hworker
        cases hworker
      · exact And.left
  · by_cases hqq : q = q₀
    · subst hqq
      refine ⟨kids₀.erase t, stop₀, ⟨hun.segment, hkids₀.nodup.erase t,
        fun c => ?_, fun hd => hkids₀.alive fun hd' => hd ((hlife q).mpr hd')⟩⟩
      rw [hkids₀.nodup.mem_erase_iff, hisChild, hkids₀.mem, and_comm]
    · have hout : ∀ c, IsChild k ring q c → ¬IsChild k ring q₀ c := fun c hc hc₀ =>
        hqq (Option.some.inj (hc.parent.symm.trans hc₀.parent))
      refine ⟨kids, stop, ⟨?_, hkids.nodup, fun c => ?_, hstop⟩⟩
      · rw [hun.child q hqq, hchild]
        refine hkids.segment.congr fun c hc => ?_
        rw [hun.sibling c fun hc₀ => hout c ((hkids.mem c).mp hc)
          ((hkids₀.mem c).mp hc₀), hsibling]
      · rw [hisChild, hkids.mem]
        constructor
        · refine fun hc => ⟨hc, ?_⟩
          rintro rfl
          exact hqq (Option.some.inj (hc.parent.symm.trans hq₀))
        · exact And.left

/-- What a round of `gc_tasks` that frees `t` has changed before it is freed: one
`next` pointer, and one list of children. -/
structure Freed (k : Kernel) (ring : List Nat) (p t : Nat) (k₁ : Kernel) :
    Prop where
  next : ∀ u, (k₁.tasks u).next =
    if u = p then (k.tasks t).next else (k.tasks u).next
  parent : ∀ u, (k₁.tasks u).parent = (k.tasks u).parent
  proj : ∀ {α : Type} (π : Task → α), (∀ x l, π (Task.withLinks x l) = π x) →
    ∀ u, π (k₁.tasks u) = π (k.tasks u)
  allocated : k₁.allocated = k.allocated
  rr : k₁.rr = k.rr
  current : k₁.current = k.current
  lastPid : k₁.lastPid = k.lastPid
  lists : ((k.tasks t).isKworker = true ∧
      (∀ u, (k₁.tasks u).child = (k.tasks u).child) ∧
      ∀ u, (k₁.tasks u).nextSibling = (k.tasks u).nextSibling) ∨
    ∃ k₀ q kids stop, (k.tasks t).parent = some q ∧ Kids k ring q kids stop ∧
      (∀ u, (k₀.tasks u).child = (k.tasks u).child) ∧
      (∀ u, (k₀.tasks u).nextSibling = (k.tasks u).nextSibling) ∧
      Unlinked k₀ q t kids stop k₁

theorem Family.freed {p t n : Nat} {k₁ : Kernel} (h : Family k ring)
    (ht : t ∈ ring) (hne : t ≠ initTask)
    (hunlink : if ((cutTask k p t).tasks t).isKworker then k₁ = cutTask k p t
      else unlinkChild n (cutTask k p t) t = .ok k₁) : Freed k ring p t k₁ := by
  have hcut : ∀ {α : Type} (π : Task → α), (∀ x y, π { x with next := y } = π x) →
      ∀ u, π ((cutTask k p t).tasks u) = π (k.tasks u) := fun π hπ u =>
    Kernel.modifyTask_proj π _ p u (hπ _ _)
  have hcutProj : ∀ {α : Type} (π : Task → α),
      (∀ x l, π (Task.withLinks x l) = π x) →
      ∀ u, π ((cutTask k p t).tasks u) = π (k.tasks u) := fun π hπ u =>
    hcut π (fun x y => hπ x { x.links with next := y }) u
  have hnext : ∀ u, ((cutTask k p t).tasks u).next =
      if u = p then (k.tasks t).next else (k.tasks u).next := by
    intro u
    rw [cutTask, Kernel.modifyTask_apply]
    split <;> rfl
  have hparent := hcut Task.parent fun _ _ => rfl
  have hchild := hcut Task.child fun _ _ => rfl
  have hsibling := hcut Task.nextSibling fun _ _ => rfl
  rw [hcut Task.isKworker fun _ _ => rfl] at hunlink
  cases hworker : (k.tasks t).isKworker with
  | true =>
      rw [hworker, if_pos rfl] at hunlink
      subst hunlink
      exact ⟨hnext, hparent, hcutProj, rfl, rfl, rfl, rfl,
        Or.inl ⟨hworker, hchild, hsibling⟩⟩
  | false =>
      rw [hworker, if_neg Bool.false_ne_true] at hunlink
      obtain ⟨q, hq, hqt, hqpar⟩ := h.parent t ht hworker hne
      obtain ⟨kids, stop, hkids⟩ := h.kids q hq hqpar.alive
      have hseg : Segment (fun u => ((cutTask k p t).tasks u).nextSibling)
          ((cutTask k p t).tasks q).child kids stop := by
        rw [hchild]
        exact hkids.segment.congr fun u _ => hsibling u
      have hun := unlinkChild_unlinked hkids.nodup hseg
        ((hkids.mem t).mpr ⟨ht, hworker, hne, hqt⟩) ((hparent t).trans hqt)
        hunlink
      have hfields : k₁.allocated = k.allocated ∧ k₁.rr = k.rr ∧
          k₁.current = k.current ∧ k₁.lastPid = k.lastPid := by
        obtain ⟨_, rfl⟩ := hun.only
        exact ⟨rfl, rfl, rfl, rfl⟩
      exact ⟨fun u => (hun.next u).trans (hnext u),
        fun u => (hun.parent u).trans (hparent u),
        fun π hπ u => (hun.only.proj π hπ u).trans (hcutProj π hπ u),
        hfields.1, hfields.2.1, hfields.2.2.1, hfields.2.2.2,
        Or.inr ⟨cutTask k p t, q, kids, stop, hqt, hkids, hchild, hsibling, hun⟩⟩

theorem Ring.next_mem (h : Ring k ring) {t : Nat} (ht : t ∈ ring) :
    (k.tasks t).next ∈ ring := by
  by_cases hinit : (k.tasks t).next = initTask
  · rw [hinit]
    exact h.init_mem
  · obtain ⟨before, after, rfl⟩ := List.append_of_mem ht
    have hsuffix := h.chain.suffix
    rw [ringNext, if_neg hinit] at hsuffix
    cases after with
    | nil => cases hsuffix
    | cons a rest =>
        rw [Option.some.inj hsuffix.1]
        simp

theorem Ring.drop (h : Ring k ring) {p t : Nat} {k₁ : Kernel} (hp : p ∈ ring)
    (hnext : (k.tasks p).next = t) (hne : t ≠ initTask)
    (hfreed : Freed k ring p t k₁) :
    t ∈ ring ∧ p ≠ t ∧ ∃ ring', Ring (dropTask k₁ t) ring' ∧
      ∀ u, u ∈ ring' ↔ u ∈ ring ∧ u ≠ t := by
  have ht : t ∈ ring := hnext ▸ h.next_mem hp
  obtain ⟨before, rest, rfl⟩ := List.append_of_mem hp
  obtain ⟨after, rfl⟩ : ∃ after, rest = t :: after := by
    have hrest := h.chain.suffix
    rw [ringNext, hnext, if_neg hne] at hrest
    cases rest with
    | nil => cases hrest
    | cons a after => exact ⟨after, by rw [Option.some.inj hrest.1]⟩
  obtain ⟨hbefore, hafter⟩ := h.chain.ne_of_split
  have hpt : p ≠ t := fun heq => hafter t List.mem_cons_self heq.symm
  have herase : (before ++ p :: t :: after).erase t = before ++ p :: after := by
    have hnodup := h.chain.nodup
    rw [List.nodup_append] at hnodup
    rw [List.erase_append_right, List.erase_cons_tail, List.erase_cons_head]
    · simpa using hpt
    · exact fun hb => hnodup.2.2 t hb t
        (List.mem_cons_of_mem p List.mem_cons_self) rfl
  have hring : ∀ u, u ∈ before ++ p :: after ↔
      u ∈ before ++ p :: t :: after ∧ u ≠ t := fun u => by
    rw [← herase, h.chain.nodup.mem_erase_iff, and_comm]
  have hnextt : (k₁.tasks t).next = (k.tasks t).next := by
    rw [hfreed.next, if_neg hpt.symm]
  have htt : (k.tasks t).next ≠ t := fun heq => by
    have hsplit : Chain (ringNext k) (ringNext k p) ([] ++ t :: after) :=
      h.chain.suffix
    obtain ⟨-, hts⟩ := hsplit.ne_of_split
    have hsuffix := h.chain.suffix.2
    rw [ringNext, heq, if_neg hne] at hsuffix
    cases after with
    | nil => cases hsuffix
    | cons a rest =>
        exact hts a List.mem_cons_self (Option.some.inj hsuffix.1).symm
  have hmoved : ∀ x ∈ before ++ p :: t :: after,
      (if x = t then (k₁.tasks t).next else x) ∈ before ++ p :: after := by
    intro x hx
    split
    · rw [hnextt]
      exact (hring _).mpr ⟨h.next_mem ht, htt⟩
    · exact (hring x).mpr ⟨hx, ‹_›⟩
  refine ⟨ht, hpt, before ++ p :: after, ⟨?_, ?_, ?_, ?_⟩, hring⟩
  · refine h.chain.remove_after ?_ fun u hu => ?_
    · rw [ringNext, ringNext, dropTask]
      dsimp only
      rw [hfreed.next, if_pos rfl]
    · have hup : u ≠ p := by
        rcases List.mem_append.mp hu with hu | hu
        · exact hbefore u hu
        · exact hafter u (List.mem_cons_of_mem t hu)
      rw [ringNext, ringNext, dropTask]
      dsimp only
      rw [hfreed.next, if_neg hup]
  · intro u hu
    obtain ⟨hu, hut⟩ := (hring u).mp hu
    rw [dropTask, Finset.mem_erase, hfreed.allocated]
    exact ⟨⟨hut, (h.allocated u hu).1⟩, (h.allocated u hu).2⟩
  · rw [dropTask, hfreed.rr]
    exact hmoved _ h.rr
  · rw [dropTask, hfreed.current]
    rcases h.current with hc | hc
    · exact Or.inl (hmoved _ hc)
    · right
      rw [hc]
      exact if_neg fun heq => (h.allocated t ht).2 heq.symm

/-- One task freed by `gc_tasks`. -/
theorem Tree.gcStep {p t n : Nat} {k₁ : Kernel} (h : Tree k ring) (hp : p ∈ ring)
    (hnext : (k.tasks p).next = t) (hne : t ≠ initTask)
    (hdel : (k.tasks t).state = .deleted)
    (hunlink : if ((cutTask k p t).tasks t).isKworker then k₁ = cutTask k p t
      else unlinkChild n (cutTask k p t) t = .ok k₁) :
    ∃ ring', Tree (dropTask k₁ t) ring' ∧ p ∈ ring' ∧
      ((dropTask k₁ t).tasks p).next = (k₁.tasks t).next ∧
      ∀ u, u ∈ ring' ↔ u ∈ ring ∧ u ≠ t := by
  have ht : t ∈ ring := hnext ▸ h.order.next_mem hp
  have hfreed := h.family.freed ht hne hunlink
  obtain ⟨-, hpt, ring', horder, hring⟩ := h.order.drop hp hnext hne hfreed
  have hkworker := hfreed.proj Task.isKworker fun _ _ => rfl
  have hstate := hfreed.proj Task.state fun _ _ => rfl
  have hpid := hfreed.proj Task.pid fun _ _ => rfl
  have hlife : ∀ u, (k₁.tasks u).Dead ↔ (k.tasks u).Dead := fun u => by
    rw [Task.Dead, Task.Dead, hstate u]
  have hnotpar : ¬Keeper k t := fun hpar =>
    hpar.elim (fun halive => halive (Or.inr hdel)) hne
  have hfamily := h.family.remove ht hnotpar hring hkworker hfreed.parent hlife
    hfreed.lists
  refine ⟨ring', ⟨horder, hfamily.congr (fun _ _ => rfl) (fun _ _ => rfl)
    (fun _ _ => rfl) (fun _ _ => rfl) (fun _ _ => Iff.rfl), ⟨?_, ?_, ?_⟩, ?_, ?_,
    ?_⟩, (hring p).mpr ⟨hp, hpt⟩, ?_, hring⟩
  · intro u hu v hv hud hvd heq
    have hd : ∀ w, (k₁.tasks w).state ≠ .deleted →
        (k.tasks w).state ≠ .deleted := fun w hw hd => hw ((hstate w).trans hd)
    exact h.pids.distinct u ((hring u).mp hu).1 v ((hring v).mp hv).1 (hd u hud)
      (hd v hvd) ((hpid u).symm.trans (heq.trans (hpid v)))
  · intro u hu
    have hb := h.pids.bound u ((hring u).mp hu).1
    rw [← hpid u, ← hfreed.lastPid] at hb
    exact hb
  · exact (hpid idleTask).trans h.pids.idle
  · intro u hu c hw
    have hw' : Waits (k.tasks u) c :=
      ⟨(hstate u).symm.trans hw.state,
        (hfreed.proj Task.blockReason (fun _ _ => rfl) u).symm.trans hw.reason,
        (hfreed.proj Task.blockedProcess (fun _ _ => rfl) u).symm.trans hw.child⟩
    obtain ⟨hc, hcd⟩ := h.waiters u ((hring u).mp hu).1 c hw'
    have hct : c ≠ t := by
      rintro rfl
      exact hcd hdel
    refine ⟨⟨(hring c).mpr ⟨hc.mem, hct⟩, (hkworker c).trans hc.user, hc.ne_init,
      (hfreed.parent c).trans hc.parent⟩, fun hd => hcd ?_⟩
    exact (hstate c).symm.trans hd
  · exact (hkworker initTask).trans h.init
  · exact (hfreed.parent initTask).trans h.initParent
  · show (k₁.tasks p).next = (k₁.tasks t).next
    rw [hfreed.next, if_pos rfl, hfreed.next, if_neg hpt.symm]

/-- A task allocated but out of reach: it is in nobody's ring. -/
def Leaked (k : Kernel) (ring : List Nat) (t : Nat) : Prop :=
  t ∈ k.allocated ∧ t ≠ idleTask ∧ t ∉ ring

theorem Tree.gcLoop : ∀ {n p t : Nat} {k : Kernel} {ring : List Nat},
    Tree k ring → p ∈ ring → (k.tasks p).next = t →
    GlitchedOS.gcLoop n k p t = .ok k' →
    ∃ ring', Tree k' ring' ∧ (∀ u ∈ ring', u ∈ ring) ∧
      ∀ u, Leaked k' ring' u → Leaked k ring u
  | 0, _, _, _, _, _, _, _, hrun => by cases hrun
  | n + 1, p, t, k, ring, h, hp, hnext, hrun => by
      rcases gcLoop_cases hrun with ⟨-, rfl⟩ | ⟨-, -, hrun⟩ |
        ⟨hne, hdel, k₁, hunlink, hrun⟩
      · exact ⟨ring, h, fun _ hu => hu, fun _ hu => hu⟩
      · exact gcLoop h (hnext ▸ h.order.next_mem hp) rfl hrun
      · obtain ⟨ring₁, h₁, hp₁, hnext₁, hring⟩ :=
          h.gcStep hp hnext hne hdel hunlink
        have hfreed := h.family.freed (hnext ▸ h.order.next_mem hp) hne hunlink
        obtain ⟨ring', h', hsub, hleak⟩ := gcLoop h₁ hp₁ hnext₁ hrun
        refine ⟨ring', h', fun u hu => ((hring u).mp (hsub u hu)).1,
          fun u hu => ?_⟩
        obtain ⟨hmem, hidle, hout⟩ := hleak u hu
        rw [dropTask, Finset.mem_erase, hfreed.allocated] at hmem
        exact ⟨hmem.2, hidle, fun hu => hout ((hring u).mpr ⟨hu, hmem.1⟩)⟩

/-! ### Orphans -/

/-- What handing the list `orphans` over to `target`, whose children are `kids`,
leaves. -/
structure Adopted (k : Kernel) (target : Nat) (orphans kids : List Nat)
    (stop : Option Nat) (k' : Kernel) : Prop where
  next : ∀ u, (k'.tasks u).next = (k.tasks u).next
  child : ∀ u, u ≠ target → (k'.tasks u).child = (k.tasks u).child
  sibling : ∀ u, u ∉ orphans →
    (k'.tasks u).nextSibling = (k.tasks u).nextSibling
  parent : ∀ u, (k'.tasks u).parent =
    if u ∈ orphans then some target else (k.tasks u).parent
  segment : Segment (fun u => (k'.tasks u).nextSibling) (k'.tasks target).child
    (orphans.reverse ++ kids) stop

theorem Adopted.of_links {target : Nat} {orphans kids : List Nat}
    {stop : Option Nat} {k₀ : Kernel}
    (h : Adopted k₀ target orphans kids stop k')
    (hlinks : ∀ u, (k₀.tasks u).links = (k.tasks u).links) :
    Adopted k target orphans kids stop k' where
  next := fun u => (h.next u).trans (congrArg Links.next (hlinks u))
  child := fun u hu => (h.child u hu).trans (congrArg Links.child (hlinks u))
  sibling := fun u hu =>
    (h.sibling u hu).trans (congrArg Links.nextSibling (hlinks u))
  parent := fun u => (h.parent u).trans (by
    rw [show (k₀.tasks u).parent = (k.tasks u).parent from
      congrArg Links.parent (hlinks u)])
  segment := h.segment

/-- One round of the loop that hands children over. -/
def adopt (k : Kernel) (target c : Nat) : Kernel :=
  (k.modifyTask c fun x =>
    { x with parent := some target, nextSibling := (k.tasks target).child
    }).modifyTask target fun x => { x with child := some c }

section Adopt

variable (k) (target c u : Nat)

theorem adopt_next : ((adopt k target c).tasks u).next = (k.tasks u).next := by
  rw [adopt, Kernel.modifyTask_proj Task.next _ _ _ rfl,
    Kernel.modifyTask_proj Task.next _ _ _ rfl]

theorem adopt_nextSibling : ((adopt k target c).tasks u).nextSibling =
    if u = c then (k.tasks target).child else (k.tasks u).nextSibling := by
  rw [adopt, Kernel.modifyTask_proj Task.nextSibling _ _ _ rfl,
    Kernel.modifyTask_apply]
  split <;> rfl

theorem adopt_parent : ((adopt k target c).tasks u).parent =
    if u = c then some target else (k.tasks u).parent := by
  rw [adopt, Kernel.modifyTask_proj Task.parent _ _ _ rfl,
    Kernel.modifyTask_apply]
  split <;> rfl

theorem adopt_child : ((adopt k target c).tasks u).child =
    if u = target then some c else (k.tasks u).child := by
  rw [adopt, Kernel.modifyTask_apply]
  split
  · rfl
  · exact Kernel.modifyTask_proj Task.child _ _ _ rfl

end Adopt

theorem reparent_adopted {target : Nat} {stop : Option Nat} :
    ∀ {n : Nat} {k : Kernel} {start : Option Nat} {orphans kids : List Nat},
      Segment (fun u => (k.tasks u).nextSibling) start orphans none →
      Segment (fun u => (k.tasks u).nextSibling) (k.tasks target).child kids
        stop →
      orphans.Nodup → (∀ u ∈ orphans, u ∉ kids) →
      reparent n k target start = .ok k' →
      Adopted k target orphans kids stop k'
  | n, k, start, [], kids, hor, hkids, _, _, h => by
      obtain rfl : start = none := hor
      obtain rfl : k = k' := by
        cases n <;> exact Except.ok.inj h
      exact ⟨fun _ => rfl, fun _ _ => rfl, fun _ _ => rfl, fun _ => rfl, hkids⟩
  | 0, _, _, c :: rest, _, hor, _, _, _, h => by
      obtain rfl := hor.1
      cases h
  | n + 1, k, _, c :: rest, kids, hor, hkids, hnodup, hdisj, h => by
      obtain rfl := hor.1
      rw [reparent] at h
      obtain ⟨hcrest, hrest⟩ := List.nodup_cons.mp hnodup
      have hckids : c ∉ kids := hdisj c List.mem_cons_self
      have hor₁ : Segment (fun u => ((adopt k target c).tasks u).nextSibling)
          (k.tasks c).nextSibling rest none := by
        refine hor.2.congr fun u hu => (adopt_nextSibling k target c u).trans
          (if_neg ?_)
        rintro rfl
        exact hcrest hu
      have hkids₁ : Segment (fun u => ((adopt k target c).tasks u).nextSibling)
          ((adopt k target c).tasks target).child (c :: kids) stop := by
        refine ⟨(adopt_child k target c target).trans (if_pos rfl), ?_⟩
        dsimp only
        rw [adopt_nextSibling, if_pos rfl]
        refine hkids.congr fun u hu => (adopt_nextSibling k target c u).trans
          (if_neg ?_)
        rintro rfl
        exact hckids hu
      have hdisj₁ : ∀ u ∈ rest, u ∉ c :: kids := by
        intro u hu hmem
        rcases List.mem_cons.mp hmem with rfl | hmem
        · exact hcrest hu
        · exact hdisj u (List.mem_cons_of_mem c hu) hmem
      have hrun := reparent_adopted hor₁ hkids₁ hrest hdisj₁ h
      refine ⟨fun u => (hrun.next u).trans (adopt_next k target c u),
        fun u hu => ?_, fun u hu => ?_, fun u => ?_, ?_⟩
      · rw [hrun.child u hu, adopt_child, if_neg hu]
      · rw [hrun.sibling u fun hmem => hu (List.mem_cons_of_mem c hmem),
          adopt_nextSibling, if_neg]
        rintro rfl
        exact hu List.mem_cons_self
      · rw [hrun.parent, adopt_parent]
        by_cases hu : u ∈ rest
        · rw [if_pos hu, if_pos (List.mem_cons_of_mem c hu)]
        · rw [if_neg hu]
          by_cases huc : u = c
          · rw [if_pos huc, if_pos (huc ▸ List.mem_cons_self)]
          · rw [if_neg huc, if_neg]
            exact fun hmem => (List.mem_cons.mp hmem).elim huc hu
      · rw [List.reverse_cons, List.append_assoc]
        exact hrun.segment

/-- The children of a task that ends go to another one. -/
theorem Family.adopt (h : Family k ring) {t target : Nat}
    (htarget : target ∈ ring) (hne : t ≠ target) (hpar : Parental k target)
    (hkworker : ∀ u, (k'.tasks u).isKworker = (k.tasks u).isKworker)
    (hdead : ∀ u, (k'.tasks u).Dead ↔ u = t ∨ (k.tasks u).Dead)
    {orphans kids : List Nat} {stop : Option Nat} (hnodup : orphans.Nodup)
    (horphans : ∀ c, c ∈ orphans ↔ IsChild k ring t c)
    (hkids : Kids k ring target kids stop)
    (hadopted : Adopted k target orphans kids stop k') : Family k' ring := by
  have hparental : ∀ q, q ≠ t → Parental k q → Parental k' q := fun q hqt h =>
    ⟨(hkworker q).trans h.user,
      h.alive.congr fun hd => ((hdead q).mp hd).resolve_left hqt⟩
  have hisChild : ∀ q c, IsChild k' ring q c ↔
      (q = target ∧ c ∈ orphans) ∨ (q ≠ t ∧ IsChild k ring q c) := by
    intro q c
    constructor
    · rintro ⟨hmem, huser, hi, hpa⟩
      rw [hkworker] at huser
      rw [hadopted.parent] at hpa
      split at hpa
      · exact Or.inl ⟨(Option.some.inj hpa).symm, ‹_›⟩
      · rename_i hc
        refine Or.inr ⟨?_, ⟨hmem, huser, hi, hpa⟩⟩
        rintro rfl
        exact hc ((horphans c).mpr ⟨hmem, huser, hi, hpa⟩)
    · rintro (⟨rfl, hc⟩ | ⟨hqt, hc⟩)
      · have hc' := (horphans c).mp hc
        exact ⟨hc'.mem, (hkworker c).trans hc'.user, hc'.ne_init,
          by rw [hadopted.parent, if_pos hc]⟩
      · refine ⟨hc.mem, (hkworker c).trans hc.user, hc.ne_init, ?_⟩
        rw [hadopted.parent, if_neg, hc.parent]
        exact fun hc' => hqt (Option.some.inj
          (hc.parent.symm.trans ((horphans c).mp hc').parent))
  have hsame : ∀ q c, q ≠ t → IsChild k ring q c → c ∉ orphans := fun q c hqt hc
      hc' => hqt (Option.some.inj
    (hc.parent.symm.trans ((horphans c).mp hc').parent))
  refine ⟨fun c hc huser hi => ?_, fun q hq hqpar => ?_⟩
  · rw [hkworker] at huser
    obtain ⟨q, hq, heq, hqpar⟩ := h.parent c hc huser hi
    rw [hadopted.parent]
    by_cases hco : c ∈ orphans
    · rw [if_pos hco]
      exact ⟨target, htarget, rfl, hparental target hne.symm hpar⟩
    · rw [if_neg hco]
      have hqt : q ≠ t := by
        rintro rfl
        exact hco ((horphans c).mpr ⟨hc, huser, hi, heq⟩)
      exact ⟨q, hq, heq, hparental q hqt hqpar⟩
  by_cases hqt : q = t
  · -- only `init_task` keeps a list after it has ended, and it is empty
    subst hqt
    refine ⟨[], (k'.tasks q).child, ⟨rfl, List.nodup_nil, fun c => ?_,
      fun hd => absurd ((hdead q).mpr (Or.inl rfl)) hd⟩⟩
    rw [hisChild]
    simp [hne]
  have hlife : ¬(k'.tasks q).Dead → ¬(k.tasks q).Dead := fun hd hd' =>
    hd ((hdead q).mpr (Or.inr hd'))
  by_cases hqtarget : q = target
  · subst hqtarget
    refine ⟨orphans.reverse ++ kids, stop, ⟨hadopted.segment, ?_, fun c => ?_,
      fun hd => hkids.alive (hlife hd)⟩⟩
    · refine List.nodup_append.mpr ⟨List.nodup_reverse.mpr hnodup, hkids.nodup, ?_⟩
      rintro u hu v hv rfl
      exact hsame q u hqt ((hkids.mem u).mp hv) (List.mem_reverse.mp hu)
    · rw [hisChild, List.mem_append, List.mem_reverse, hkids.mem]
      simp [hqt]
  · obtain ⟨own, stop', hown⟩ := h.kids q hq
      (hqpar.congr fun hd => (hdead q).mpr (Or.inr hd))
    refine ⟨own, stop', ⟨?_, hown.nodup, fun c => ?_,
      fun hd => hown.alive (hlife hd)⟩⟩
    · rw [hadopted.child q hqtarget]
      exact hown.segment.congr fun c hc => hadopted.sibling c
        (hsame q c hqt ((hown.mem c).mp hc))
    · rw [hisChild, hown.mem]
      simp [hqtarget, hqt]

end GlitchedOS
