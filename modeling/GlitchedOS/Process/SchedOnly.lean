/-
The part of the scheduler that leaves alone who a task is and what it has open:
it writes states, events, signals and the frame of a task, and no description,
pipe or mount.
-/
import GlitchedOS.Process.Zombie

namespace GlitchedOS

variable {k k' k'' : Kernel}

/-- The process number, the group, the session and the descriptors of a task. -/
def Task.body (x : Task) : Int × Int × Int × (Nat → Fd) :=
  (x.pid, x.pgid, x.sid, x.fdTable)

/-- Only what the scheduler keeps of tasks differs, and user memory. -/
structure SchedOnly (k k' : Kernel) : Prop where
  body : ∀ t, (k'.tasks t).body = (k.tasks t).body
  files : k'.files = k.files
  pipes : k'.pipes = k.pipes
  livePipes : k'.livePipes = k.livePipes
  vfs : k'.vfs = k.vfs

namespace SchedOnly

theorem refl (k : Kernel) : SchedOnly k k := ⟨fun _ => rfl, rfl, rfl, rfl, rfl⟩

theorem trans (h : SchedOnly k k') (h' : SchedOnly k' k'') : SchedOnly k k'' where
  body := fun t => (h'.body t).trans (h.body t)
  files := h'.files.trans h.files
  pipes := h'.pipes.trans h.pipes
  livePipes := h'.livePipes.trans h.livePipes
  vfs := h'.vfs.trans h.vfs

theorem modifyTask (k : Kernel) (t : Nat) {f : Task → Task}
    (hf : (f (k.tasks t)).body = (k.tasks t).body) :
    SchedOnly k (k.modifyTask t f) where
  body := fun u => Kernel.modifyTask_proj Task.body k t u hf
  files := rfl
  pipes := rfl
  livePipes := rfl
  vfs := rfl

theorem of_pendingOnly (h : PendingOnly k k') : SchedOnly k k' := by
  have hbody := h.proj Task.body fun _ _ => rfl
  obtain ⟨_, rfl⟩ := h
  exact ⟨hbody, rfl, rfl, rfl, rfl⟩

theorem enterSyscall (k : Kernel) (number : Int) :
    SchedOnly k (GlitchedOS.enterSyscall k number) := by
  rw [GlitchedOS.enterSyscall]
  exact modifyTask k k.current rfl

theorem signalTask (k : Kernel) (t sig : Nat) :
    SchedOnly k (GlitchedOS.signalTask k t sig) :=
  .trans (modifyTask k t (Task.signalled_proj Task.body (fun _ _ _ _ => rfl) _ sig))
    (of_pendingOnly (signalTask_pending k t sig))

theorem killLoop {pid : Int} {sig : Nat} (l : List Nat) (k : Kernel) :
    SchedOnly k (GlitchedOS.killLoop pid sig l k).2 := by
  induction l generalizing k with
  | nil => exact refl k
  | cons t rest ih =>
      rw [GlitchedOS.killLoop]
      split
      · exact (signalTask k t sig).trans (ih _)
      · exact ih k

end SchedOnly

/-- What `check_blocked_tasks` may write to a task. -/
def Task.withWait (x : Task) (state : ProcessState) (blockReason : BlockReason)
    (iframe : Iframe) (blockedTicks : BitVec 64) (blockedProcess : Option Nat)
    (waitpidEvent : Int) : Task :=
  { x with state := state, blockReason := blockReason, iframe := iframe,
           blockedTicks := blockedTicks, blockedProcess := blockedProcess,
           waitpidEvent := waitpidEvent }

/-- Only what tasks wait for differs, and user memory. -/
structure WaitOnly (k k' : Kernel) : Prop where
  proj : ∀ {α : Type} (π : Task → α),
    (∀ x s r f n c e, π (Task.withWait x s r f n c e) = π x) →
    ∀ u, π (k'.tasks u) = π (k.tasks u)
  files : k'.files = k.files
  pipes : k'.pipes = k.pipes
  livePipes : k'.livePipes = k.livePipes
  vfs : k'.vfs = k.vfs

namespace WaitOnly

theorem refl (k : Kernel) : WaitOnly k k := ⟨fun _ _ _ => rfl, rfl, rfl, rfl, rfl⟩

theorem trans (h : WaitOnly k k') (h' : WaitOnly k' k'') : WaitOnly k k'' where
  proj := fun π hπ u => (h'.proj π hπ u).trans (h.proj π hπ u)
  files := h'.files.trans h.files
  pipes := h'.pipes.trans h.pipes
  livePipes := h'.livePipes.trans h.livePipes
  vfs := h'.vfs.trans h.vfs

theorem modifyTask (k : Kernel) (t : Nat) {f : Task → Task}
    (hf : ∀ x, f x = x.withWait (f x).state (f x).blockReason (f x).iframe
      (f x).blockedTicks (f x).blockedProcess (f x).waitpidEvent) :
    WaitOnly k (k.modifyTask t f) where
  proj := fun π hπ u => by
    refine Kernel.modifyTask_proj π k t u ?_
    rw [hf]
    exact hπ _ _ _ _ _ _ _
  files := rfl
  pipes := rfl
  livePipes := rfl
  vfs := rfl

theorem storeStatus (k : Kernel) (cr3 : Nat) (wstatus : Option Nat)
    (word : BitVec 32) :
    WaitOnly k (GlitchedOS.storeStatus k cr3 wstatus word) := by
  cases wstatus with
  | none => exact refl k
  | some addr => exact ⟨fun _ _ _ => rfl, rfl, rfl, rfl, rfl⟩

theorem consumeEvent (k : Kernel) (c : Nat) (event : WaitEvent) :
    WaitOnly k (GlitchedOS.consumeEvent k c event) := by
  cases event with
  | terminated =>
      rw [GlitchedOS.consumeEvent]
      exact modifyTask k c fun _ => rfl
  | stopped =>
      rw [GlitchedOS.consumeEvent]
      · exact modifyTask k c fun _ => rfl
      · simp
  | continued =>
      rw [GlitchedOS.consumeEvent]
      · exact modifyTask k c fun _ => rfl
      · simp

theorem unblock (k : Kernel) (t : Nat) (rax : Int) :
    WaitOnly k (GlitchedOS.unblock k t rax) := by
  rw [GlitchedOS.unblock]
  exact modifyTask k t fun _ => rfl

theorem checkDelay (reduceTicks : Bool) (k : Kernel) (t : Nat) :
    WaitOnly k (GlitchedOS.checkDelay reduceTicks k t) := by
  rw [GlitchedOS.checkDelay]
  generalize hk₁ : (if reduceTicks = true then k.modifyTask t fun x =>
    { x with blockedTicks := x.blockedTicks - 1#64 } else k) = k₁
  have h₁ : WaitOnly k k₁ := by
    rw [← hk₁]
    split
    · exact modifyTask k t fun _ => rfl
    · exact refl k
  generalize hk₂ : (if (k₁.tasks t).blockedTicks = 0#64 then k₁.modifyTask t
    fun x => { x with state := .ready, blockReason := .none } else k₁) = k₂
  have h₂ : WaitOnly k k₂ := by
    rw [← hk₂]
    split
    · exact h₁.trans (modifyTask k₁ t fun _ => rfl)
    · exact h₁
  split
  · exact (h₂.trans (unblock k₂ t _)).trans (modifyTask _ t fun _ => rfl)
  · exact h₂

theorem checkWaitChild (k : Kernel) (t child : Nat) :
    WaitOnly k (GlitchedOS.checkWaitChild k t child).2 := by
  have hclear : ∀ (k : Kernel) (rax : Int), WaitOnly k ((GlitchedOS.unblock k t
      rax).modifyTask t fun x => { x with blockedProcess := none }) :=
    fun k rax => (unblock k t rax).trans (modifyTask _ t fun _ => rfl)
  rw [GlitchedOS.checkWaitChild]
  dsimp only
  split
  · exact ((storeStatus k _ _ _).trans (consumeEvent _ child _)).trans (hclear _ _)
  · split
    · exact hclear k _
    · exact refl k

theorem checkWaitAny {fuel t : Nat} {report : Option (Nat × WaitEvent)}
    (h : GlitchedOS.checkWaitAny fuel k t = .ok (report, k')) : WaitOnly k k' := by
  rw [GlitchedOS.checkWaitAny] at h
  dsimp only at h
  rw [bind_ok_iff] at h
  obtain ⟨target, -, h⟩ := h
  split at h
  · obtain ⟨-, rfl⟩ := Prod.mk.inj (Except.ok.inj h)
    split
    · exact unblock k t _
    · exact refl k
  split at h
  · obtain ⟨-, rfl⟩ := Prod.mk.inj (Except.ok.inj h)
    exact refl k
  obtain ⟨-, rfl⟩ := Prod.mk.inj (Except.ok.inj h)
  refine trans ?_ (unblock _ t _)
  split
  · exact storeStatus k _ _ _
  · exact (storeStatus k _ _ _).trans (consumeEvent _ _ _)

theorem checkBlockedTask {fuel t : Nat} {reduceTicks : Bool}
    {report : Option (Nat × WaitEvent)}
    (h : GlitchedOS.checkBlockedTask fuel reduceTicks k t = .ok (report, k')) :
    WaitOnly k k' := by
  rw [GlitchedOS.checkBlockedTask] at h
  split at h
  · obtain ⟨-, rfl⟩ := Prod.mk.inj (Except.ok.inj h)
    exact refl k
  split at h
  · obtain ⟨-, rfl⟩ := Prod.mk.inj (Except.ok.inj h)
    exact refl k
  · obtain ⟨-, rfl⟩ := Prod.mk.inj (Except.ok.inj h)
    exact checkDelay reduceTicks k t
  split at h
  · rename_i child _
    have hdone := checkWaitChild k t child
    rw [Except.ok.inj h] at hdone
    exact hdone
  · exact checkWaitAny h

theorem checkBlockedLoop {fuel : Nat} {reduceTicks : Bool} {l : List Nat}
    {reports : List (Nat × WaitEvent)}
    (h : GlitchedOS.checkBlockedLoop fuel reduceTicks l k = .ok (reports, k')) :
    WaitOnly k k' := by
  induction l generalizing k reports with
  | nil =>
      obtain ⟨-, rfl⟩ := Prod.mk.inj (Except.ok.inj h)
      exact refl k
  | cons t rest ih =>
      rw [GlitchedOS.checkBlockedLoop, bind_ok_iff] at h
      obtain ⟨⟨report, k₁⟩, hone, h⟩ := h
      dsimp only at h
      rw [bind_ok_iff] at h
      obtain ⟨⟨reports, k₂⟩, hrest, h⟩ := h
      obtain ⟨-, rfl⟩ := Prod.mk.inj (Except.ok.inj h)
      exact (checkBlockedTask hone).trans (ih hrest)

end WaitOnly

theorem SchedOnly.of_waitOnly (h : WaitOnly k k') : SchedOnly k k' :=
  ⟨h.proj Task.body fun _ _ _ _ _ _ _ => rfl, h.files, h.pipes, h.livePipes, h.vfs⟩

/-- `gc_tasks` frees deleted tasks and writes links only. -/
structure Collected (k k' : Kernel) : Prop where
  links : ∀ {α : Type} (π : Task → α), (∀ x l, π (Task.withLinks x l) = π x) →
    ∀ u, π (k'.tasks u) = π (k.tasks u)
  allocated : k'.allocated ⊆ k.allocated
  freed : ∀ u ∈ k.allocated, u ∉ k'.allocated → (k.tasks u).state = .deleted
  lastPid : k'.lastPid = k.lastPid
  files : k'.files = k.files
  pipes : k'.pipes = k.pipes
  livePipes : k'.livePipes = k.livePipes
  vfs : k'.vfs = k.vfs

theorem Collected.of_linksOnly (h : LinksOnly k k') : Collected k k' := by
  have hlinks : ∀ {α : Type} (π : Task → α),
      (∀ x l, π (Task.withLinks x l) = π x) → ∀ u,
      π (k'.tasks u) = π (k.tasks u) := fun π hπ u => h.proj π hπ u
  obtain ⟨_, rfl⟩ := h
  exact ⟨hlinks, Finset.Subset.refl _, fun u hu hout => absurd hu hout, rfl, rfl,
    rfl, rfl, rfl⟩

theorem Collected.trans (h : Collected k k') (h' : Collected k' k'') :
    Collected k k'' where
  links := fun π hπ u => (h'.links π hπ u).trans (h.links π hπ u)
  allocated := h'.allocated.trans h.allocated
  freed := fun u hu hout => by
    by_cases hmid : u ∈ k'.allocated
    · rw [← h.links Task.state (fun _ _ => rfl) u]
      exact h'.freed u hmid hout
    · exact h.freed u hu hmid
  lastPid := h'.lastPid.trans h.lastPid
  files := h'.files.trans h.files
  pipes := h'.pipes.trans h.pipes
  livePipes := h'.livePipes.trans h.livePipes
  vfs := h'.vfs.trans h.vfs

theorem Collected.cutTask (k : Kernel) (p t : Nat) :
    Collected k (GlitchedOS.cutTask k p t) := by
  refine ⟨fun π hπ u => ?_, Finset.Subset.refl _, fun u hu hout => absurd hu hout,
    rfl, rfl, rfl, rfl, rfl⟩
  exact Kernel.modifyTask_proj π _ p u (hπ _ ⟨_, _, _, _⟩)

theorem gcLoop_collected {n p t : Nat} (h : GlitchedOS.gcLoop n k p t = .ok k') :
    Collected k k' := by
  induction n generalizing k p t with
  | zero => cases h
  | succ n ih =>
      rcases gcLoop_cases h with ⟨-, rfl⟩ | ⟨-, -, h⟩ | ⟨-, hdeleted, k₁, hunlink, h⟩
      · exact .of_linksOnly (.refl _)
      · exact ih h
      have hcut : Collected k k₁ := by
        split at hunlink
        · subst hunlink
          exact .cutTask k p t
        · exact .trans (.cutTask k p t) (.of_linksOnly (.unlinkChild hunlink))
      have hdrop : Collected k₁ (dropTask k₁ t) := by
        refine ⟨fun _ _ _ => rfl, Finset.erase_subset _ _, fun u hu hout => ?_, rfl,
          rfl, rfl, rfl, rfl⟩
        have heq : u = t := by
          by_contra hne
          exact hout (Finset.mem_erase.mpr ⟨hne, hu⟩)
        rw [heq, hcut.links Task.state fun _ _ => rfl]
        exact hdeleted
      exact (hcut.trans hdrop).trans (ih h)

end GlitchedOS
