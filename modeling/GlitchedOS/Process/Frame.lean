/-
What the functions of the scheduler leave alone.  `FilesOnly` is the effect of
the descriptor calls, and the lemmas about pointer loops are stated for any part
of a task that their pointer writes keep.
-/
import GlitchedOS.Process.Signals

namespace GlitchedOS

variable {k k' k'' : Kernel}
variable {fuel new : Nat} {r : Int × Kernel} {f : Task → Task} {env : ExecEnv}

theorem bind_ok_iff {ε α β : Type} {x : Except ε α} {f : α → Except ε β}
    {b : β} : (x >>= f) = .ok b ↔ ∃ a, x = .ok a ∧ f a = .ok b := by
  cases x with
  | error e => simp [bind, Except.bind]
  | ok a => simp [bind, Except.bind]

theorem liftPaging_ok {α : Type} {x : Except Panic α} {a : α} :
    liftPaging x = .ok a ↔ x = .ok a := by
  cases x <;> simp [liftPaging]

namespace Kernel

theorem modifyTask_apply (k : Kernel) (t u : Nat) (f : Task → Task) :
    (k.modifyTask t f).tasks u =
      if u = t then f (k.tasks u) else k.tasks u := by
  by_cases h : u = t
  · subst h
    simp [modifyTask]
  · simp [modifyTask, h]

@[simp] theorem modifyTask_self (k : Kernel) (t : Nat) (f : Task → Task) :
    (k.modifyTask t f).tasks t = f (k.tasks t) := by
  simp [modifyTask]

theorem modifyTask_ne (k : Kernel) {t u : Nat} (f : Task → Task) (h : u ≠ t) :
    (k.modifyTask t f).tasks u = k.tasks u := by
  simp [modifyTask, h]

@[simp] theorem modifyTask_current (k : Kernel) (t : Nat) (f : Task → Task) :
    (k.modifyTask t f).current = k.current := rfl

theorem modifyTask_modifyTask (k : Kernel) (t : Nat) (f g : Task → Task) :
    (k.modifyTask t f).modifyTask t g = k.modifyTask t fun x => g (f x) := by
  simp [modifyTask]

theorem modifyTask_proj {α : Type} (π : Task → α) (k : Kernel) (t u : Nat)
    (h : π (f (k.tasks t)) = π (k.tasks t)) :
    π ((k.modifyTask t f).tasks u) = π (k.tasks u) := by
  rw [modifyTask_apply]
  split
  · rename_i heq
    rw [heq, h]
  · rfl

end Kernel

/-! ### Descriptor calls -/

/-- The kernel with other descriptor tables, descriptions, pipes and mounts. -/
def Kernel.withFiles (k : Kernel) (tables : Nat → Nat → Fd)
    (files : Nat → FileDescription) (pipes : Nat → Pipe)
    (livePipes : Finset Nat) (vfs : MountTable) : Kernel :=
  { k with
    tasks := fun t => { k.tasks t with fdTable := tables t }
    files := files
    pipes := pipes
    livePipes := livePipes
    vfs := vfs }

/-- Only descriptor tables, descriptions, pipes and mounts differ. -/
def FilesOnly (k k' : Kernel) : Prop :=
  ∃ tables files pipes livePipes vfs,
    k' = k.withFiles tables files pipes livePipes vfs

namespace FilesOnly

theorem refl (k : Kernel) : FilesOnly k k :=
  ⟨fun t => (k.tasks t).fdTable, k.files, k.pipes, k.livePipes, k.vfs, rfl⟩

theorem trans (h : FilesOnly k k') (h' : FilesOnly k' k'') :
    FilesOnly k k'' := by
  obtain ⟨_, _, _, _, _, rfl⟩ := h
  obtain ⟨tables, files, pipes, livePipes, vfs, rfl⟩ := h'
  exact ⟨tables, files, pipes, livePipes, vfs, rfl⟩

theorem modifyFile (k : Kernel) (d : Nat)
    (f : FileDescription → FileDescription) : FilesOnly k (k.modifyFile d f) :=
  ⟨fun t => (k.tasks t).fdTable, _, k.pipes, k.livePipes, k.vfs, rfl⟩

theorem addRef (k : Kernel) (d : Nat) : FilesOnly k (GlitchedOS.addRef k d) :=
  modifyFile k d _

theorem dropRef (k : Kernel) (d : Nat) :
    FilesOnly k (GlitchedOS.dropRef k d) :=
  modifyFile k d _

theorem setFd (k : Kernel) (t fd : Nat) (entry : Fd) :
    FilesOnly k (k.modifyTask t fun x => x.setFd fd entry) := by
  refine ⟨fun u => ((k.modifyTask t fun x => x.setFd fd entry).tasks u).fdTable,
    k.files, k.pipes, k.livePipes, k.vfs, ?_⟩
  rw [Kernel.modifyTask, Kernel.withFiles, Kernel.mk.injEq]
  refine ⟨rfl, rfl, ?_, rfl, rfl, rfl, rfl, rfl, rfl, rfl, rfl, rfl, rfl, rfl,
    rfl⟩
  funext u
  by_cases hu : u = t
  · subst hu
    simp [Task.setFd]
  · simp [hu]

theorem createPipe (k : Kernel) (p : Nat) :
    FilesOnly k (GlitchedOS.createPipe k p) :=
  ⟨fun t => (k.tasks t).fdTable, k.files, _, _, k.vfs, rfl⟩

theorem freePipe (k : Kernel) (p : Nat) :
    FilesOnly k (GlitchedOS.freePipe k p) := by
  rw [GlitchedOS.freePipe]
  split
  · exact ⟨fun t => (k.tasks t).fdTable, k.files, k.pipes, _, k.vfs, rfl⟩
  · exact refl k

theorem modifyPipe (k : Kernel) (p : Nat) (f : Pipe → Pipe) :
    FilesOnly k (k.modifyPipe p f) :=
  ⟨fun t => (k.tasks t).fdTable, k.files, _, k.livePipes, k.vfs, rfl⟩

theorem setVfs (k : Kernel) (vfs : MountTable) :
    FilesOnly k { k with vfs := vfs } :=
  ⟨fun t => (k.tasks t).fdTable, k.files, k.pipes, k.livePipes, vfs, rfl⟩

theorem closeFileDescription (env : CloseEnv) (k : Kernel) (d : Nat) :
    FilesOnly k (GlitchedOS.closeFileDescription env k d).2 := by
  have hclear : ∀ k : Kernel, FilesOnly k
      (k.modifyFile d fun f => { f with offset := 0 }) := fun k =>
    modifyFile k d _
  rw [GlitchedOS.closeFileDescription]
  dsimp only
  split
  · split
    · exact refl k
    · exact (setVfs k _).trans (hclear _)
  · split
    · exact refl k
    · exact (setVfs k _).trans (hclear _)
  · split
    · exact refl k
    · exact hclear k
  · split
    · exact ((modifyPipe k _ _).trans (freePipe _ _)).trans (hclear _)
    · exact ((modifyPipe k _ _).trans (freePipe _ _)).trans (hclear _)

theorem fdClose (env : CloseEnv) (k : Kernel) (fd : Int) :
    FilesOnly k (GlitchedOS.fdClose env k fd).2 := by
  rw [GlitchedOS.fdClose]
  split
  · exact refl k
  · rename_i d _
    have hdrop := dropRef k d
    dsimp only
    split
    · have hclose := closeFileDescription env (GlitchedOS.dropRef k d) d
      split
      · exact hdrop.trans hclose
      · exact (hdrop.trans hclose).trans (setFd _ _ _ _)
    · exact hdrop.trans (setFd _ _ _ _)

theorem openFile {env : OpenEnv} {i : Nat}
    (h : GlitchedOS.openFile env fuel k i = .ok r) : FilesOnly k r.2 := by
  rw [GlitchedOS.openFile] at h
  split at h
  · cases h
  · obtain rfl := Except.ok.inj h
    exact refl k
  rename_i file _
  have hfile := modifyFile k i fun f => { f with fileHandle := file }
  dsimp only at h
  split at h
  · obtain rfl := Except.ok.inj h
    exact hfile
  · obtain rfl := Except.ok.inj h
    exact hfile.trans (setVfs _ _)

theorem openDescription {env : OpenEnv} {type slot i : Nat} {flags : BitVec 32}
    (h : GlitchedOS.openDescription env fuel k flags type slot i = .ok r) :
    FilesOnly k r.2 := by
  rw [GlitchedOS.openDescription, bind_ok_iff] at h
  obtain ⟨⟨res, k₁⟩, hopen, h⟩ := h
  have hfile : FilesOnly k k₁ := openFile hopen
  have hwrite : ∀ f, FilesOnly k (k₁.modifyFile i f) := fun f =>
    hfile.trans (modifyFile k₁ i f)
  dsimp only at h
  split at h
  · obtain rfl := Except.ok.inj h
    exact hfile
  split at h
  · obtain rfl := Except.ok.inj h
    exact hwrite fun f => { f with fileHandle := ⟨0, 0⟩ }
  · obtain rfl := Except.ok.inj h
    exact (hwrite _).trans (setFd _ _ _ _)

theorem fdOpen {env : OpenEnv} {flags : BitVec 32}
    (h : GlitchedOS.fdOpen env fuel k flags = .ok r) : FilesOnly k r.2 := by
  rw [GlitchedOS.fdOpen] at h
  split at h
  · obtain rfl := Except.ok.inj h
    exact refl k
  split at h
  · obtain rfl := Except.ok.inj h
    exact refl k
  split at h
  · obtain rfl := Except.ok.inj h
    exact refl k
  · exact openDescription h

theorem dup (k : Kernel) (fd minfd : Int) (flags : BitVec 32) :
    FilesOnly k (GlitchedOS.dup k fd minfd flags).2 := by
  rw [GlitchedOS.dup]
  split
  · exact refl k
  split
  · exact refl k
  split
  · exact refl k
  · exact (setFd k _ _ _).trans (addRef _ _)

theorem fcntl (k : Kernel) (fd : Int) (cmd : Nat) (arg : Int) :
    FilesOnly k (GlitchedOS.fcntl k fd cmd arg).2 := by
  rw [GlitchedOS.fcntl]
  dsimp only
  split
  · exact refl k
  · split
    · exact refl k
    · exact setFd k _ _ _
    · exact refl k
    · dsimp only
      exact modifyFile k _ _
    · exact dup k _ _ _
    · exact dup k _ _ _
    · exact refl k

theorem dup2 (env : CloseEnv) (k : Kernel) (fd newFd : Int) :
    FilesOnly k (GlitchedOS.dup2 env k fd newFd).2 := by
  rw [GlitchedOS.dup2]
  split
  · exact refl k
  split
  · exact refl k
  split
  · exact refl k
  · exact ((fdClose env k newFd).trans (setFd _ _ _ _)).trans (addRef _ _)

theorem pipe (k : Kernel) (p : Nat) : FilesOnly k (GlitchedOS.pipe k p).2 := by
  have hends : ∀ i₀ f i₁ g, FilesOnly k
      (((GlitchedOS.createPipe k p).modifyFile i₀ f).modifyFile i₁ g) :=
    fun i₀ f i₁ g => ((createPipe k p).trans (modifyFile _ i₀ f)).trans
      (modifyFile _ i₁ g)
  rw [GlitchedOS.pipe]
  split
  · exact refl k
  split
  · exact refl k
  split
  · exact refl k
  split
  · exact refl k
  · exact ((hends _ _ _ _).trans (setFd _ _ _ _)).trans (setFd _ _ _ _)

theorem fdSocket (k : Kernel) (res : Int) (sock : Nat) :
    FilesOnly k (GlitchedOS.fdSocket k res sock).2 := by
  rw [GlitchedOS.fdSocket]
  split
  · exact refl k
  split
  · exact refl k
  split
  · exact refl k
  · exact (modifyFile k _ _).trans (setFd _ _ _ _)

theorem loop {body : Nat → Kernel → Kernel}
    (h : ∀ i k, FilesOnly k (body i k)) (n : Nat) (k : Kernel) :
    FilesOnly k (loopPure body n k) :=
  loopPure_induct (P := fun _ k' => FilesOnly k k') (refl k) fun i _ k' hk => hk.trans (h i k')

theorem releaseProcessFds (env : CloseEnv) (k : Kernel) :
    FilesOnly k (GlitchedOS.releaseProcessFds env k) := by
  refine loop (fun fd k => ?_) maxFds k
  split
  · exact refl k
  · exact fdClose env k fd

theorem addRefs (table : Nat → Fd) (k : Kernel) :
    FilesOnly k (GlitchedOS.addRefs table k) := by
  refine loop (fun fd k => ?_) maxFds k
  split
  · exact refl k
  · exact modifyFile k _ _

theorem closeOnExec (env : CloseEnv) (new : Nat) (k : Kernel) :
    FilesOnly k (GlitchedOS.closeOnExec env new k) := by
  refine loop (fun fd k => ?_) maxFds k
  dsimp only
  split
  · exact refl k
  · rename_i d _
    split
    · exact refl k
    · have hdrop := dropRef k d
      split
      · exact (hdrop.trans (closeFileDescription env _ d)).trans
          (setFd _ _ _ _)
      · exact hdrop.trans (setFd _ _ _ _)

theorem proj {α : Type} (π : Task → α) (hπ : ∀ x table, π { x with fdTable := table } = π x)
    (h : FilesOnly k k') (t : Nat) : π (k'.tasks t) = π (k.tasks t) := by
  obtain ⟨tables, _, _, _, _, rfl⟩ := h
  exact hπ _ _

theorem current (h : FilesOnly k k') : k'.current = k.current := by
  obtain ⟨tables, _, _, _, _, rfl⟩ := h
  rfl

end FilesOnly

/-! ### Pointer writes -/

/-- The pointers of a task that tie it to other tasks. -/
structure Links where
  next : Nat
  nextSibling : Option Nat
  parent : Option Nat
  child : Option Nat

def Task.links (x : Task) : Links := ⟨x.next, x.nextSibling, x.parent, x.child⟩

def Task.withLinks (x : Task) (l : Links) : Task :=
  { x with next := l.next, nextSibling := l.nextSibling, parent := l.parent,
           child := l.child }

/-- Only the pointers between tasks differ. -/
def LinksOnly (k k' : Kernel) : Prop :=
  ∃ links : Nat → Links,
    k' = { k with tasks := fun t => (k.tasks t).withLinks (links t) }

namespace LinksOnly

theorem refl (k : Kernel) : LinksOnly k k :=
  ⟨fun t => (k.tasks t).links, rfl⟩

theorem trans (h : LinksOnly k k') (h' : LinksOnly k' k'') :
    LinksOnly k k'' := by
  obtain ⟨_, rfl⟩ := h
  obtain ⟨links, rfl⟩ := h'
  exact ⟨links, rfl⟩

theorem modifyTask (k : Kernel) (t : Nat)
    (h : ∀ x, f x = x.withLinks (f x).links) : LinksOnly k (k.modifyTask t f) := by
  refine ⟨fun u => ((k.modifyTask t f).tasks u).links, ?_⟩
  rw [Kernel.modifyTask, Kernel.mk.injEq]
  refine ⟨rfl, rfl, ?_, rfl, rfl, rfl, rfl, rfl, rfl, rfl, rfl, rfl, rfl, rfl,
    rfl⟩
  funext u
  by_cases hu : u = t
  · subst hu
    simp only [Function.update_self]
    exact h _
  · simp only [Function.update_of_ne hu]
    rfl

theorem reparent : ∀ {n : Nat} {k : Kernel} {target : Nat} {c : Option Nat},
    GlitchedOS.reparent n k target c = .ok k' → LinksOnly k k'
  | n, k, target, none, h => by
      obtain rfl : k = k' := by
        cases n <;> exact Except.ok.inj h
      exact refl k
  | 0, _, _, some _, h => by cases h
  | n + 1, k, target, some c, h => by
      rw [GlitchedOS.reparent] at h
      exact ((modifyTask k c fun _ => rfl).trans
        (modifyTask _ target fun _ => rfl)).trans (reparent h)

theorem linkTask (k : Kernel) (new parent : Nat) :
    LinksOnly k (GlitchedOS.linkTask k new parent) := by
  rw [GlitchedOS.linkTask]
  exact (((modifyTask k new fun _ => rfl).trans
    (modifyTask _ parent fun _ => rfl)).trans
    (modifyTask _ new fun _ => rfl)).trans (modifyTask _ parent fun _ => rfl)

theorem siblingLoop {t : Nat} : ∀ {n s : Nat},
    GlitchedOS.siblingLoop k t n s = .ok k' → LinksOnly k k'
  | 0, _, h => by cases h
  | n + 1, s, h => by
      rw [GlitchedOS.siblingLoop] at h
      split at h
      · obtain rfl := Except.ok.inj h
        exact refl k
      · split at h
        · obtain rfl := Except.ok.inj h
          exact modifyTask k s fun _ => rfl
        · exact siblingLoop h

theorem unlinkChild {t : Nat}
    (h : GlitchedOS.unlinkChild fuel k t = .ok k') : LinksOnly k k' := by
  rw [GlitchedOS.unlinkChild] at h
  split at h
  · cases h
  split at h
  · obtain rfl := Except.ok.inj h
    exact modifyTask k _ fun _ => rfl
  split at h
  · cases h
  · exact siblingLoop h

theorem proj {α : Type} (π : Task → α) (hπ : ∀ x l, π (Task.withLinks x l) = π x)
    (h : LinksOnly k k') (t : Nat) : π (k'.tasks t) = π (k.tasks t) := by
  obtain ⟨links, rfl⟩ := h
  exact hπ _ _

end LinksOnly

/-! ### Attributes -/

/-- The parts of a task that scheduling and the process tree do not look at. -/
structure Attrs where
  iframe : Iframe
  signalInterruptedIframe : Iframe
  pgid : Int
  sid : Int
  inSignal : Bool
  initialBrk : Nat
  brk : Nat
  fdTable : Nat → Fd
  signalHandlers : Nat → Handler
  signalMask : BitVec 32

def Task.attrs (x : Task) : Attrs :=
  ⟨x.iframe, x.signalInterruptedIframe, x.pgid, x.sid, x.inSignal,
    x.initialBrk, x.brk, x.fdTable, x.signalHandlers, x.signalMask⟩

def Task.withAttrs (x : Task) (a : Attrs) : Task :=
  { x with
    iframe := a.iframe, signalInterruptedIframe := a.signalInterruptedIframe
    pgid := a.pgid, sid := a.sid, inSignal := a.inSignal
    initialBrk := a.initialBrk, brk := a.brk, fdTable := a.fdTable
    signalHandlers := a.signalHandlers, signalMask := a.signalMask }

theorem loadProgram_phys {cr3 : Nat} {res : Int}
    {program : Option (BitVec 64 × Nat × BitVec 64)}
    (h : loadProgram env k cr3 = .ok (res, program, k')) :
    ∃ phys, k' = { k with phys := phys } := by
  rw [loadProgram] at h
  split at h
  · obtain ⟨-, -, rfl⟩ := h
    exact ⟨_, rfl⟩
  split at h
  · obtain ⟨-, -, rfl⟩ := h
    exact ⟨_, rfl⟩
  split at h
  · obtain ⟨-, -, rfl⟩ := h
    exact ⟨_, rfl⟩
  split at h
  · obtain ⟨-, -, rfl⟩ := h
    exact ⟨_, rfl⟩
  simp only [bind_ok_iff] at h
  obtain ⟨⟨loaded, phys⟩, -, h⟩ := h
  dsimp only at h
  split at h
  · obtain ⟨-, -, rfl⟩ := h
    exact ⟨_, rfl⟩
  · simp only [bind_ok_iff] at h
    obtain ⟨_, -, _, -, _, -, h⟩ := h
    obtain ⟨-, -, rfl⟩ := h
    exact ⟨_, rfl⟩

theorem assignPgid_ok (k : Kernel) (target : Nat) (pgid : Int) :
    (assignPgid k target pgid).2 = k ∨
      (assignPgid k target pgid).2 =
        k.modifyTask target fun x => { x with pgid := pgid } := by
  rw [assignPgid]
  split
  · exact Or.inl rfl
  · exact Or.inr rfl

theorem setpgidOf_ok {target : Nat} {pid pgid : Int}
    (h : setpgidOf fuel k target pid pgid = .ok r) :
    r.2 = k ∨ r.2 = k.modifyTask target fun x => { x with pgid := pgid } := by
  rw [setpgidOf] at h
  split at h
  · obtain rfl := Except.ok.inj h
    exact Or.inl rfl
  split at h
  · rw [bind_ok_iff] at h
    obtain ⟨ring, -, h⟩ := h
    split at h
    · obtain rfl := Except.ok.inj h
      exact Or.inl rfl
    split at h
    · obtain rfl := Except.ok.inj h
      exact Or.inl rfl
    · obtain rfl := Except.ok.inj h
      exact assignPgid_ok k target pgid
  · obtain rfl := Except.ok.inj h
    exact assignPgid_ok k target pgid

/-- `setpgid` gives one task another group, or does nothing. -/
theorem setpgid_ok {pid pgid : Int} (h : setpgid fuel k pid pgid = .ok r) :
    r.2 = k ∨ ∃ t p, r.2 = k.modifyTask t fun x => { x with pgid := p } := by
  rw [setpgid, bind_ok_iff] at h
  obtain ⟨target, -, h⟩ := h
  cases target with
  | none =>
      obtain rfl := Except.ok.inj h
      exact Or.inl rfl
  | some target => exact (setpgidOf_ok h).imp_right fun heq => ⟨target, _, heq⟩

/-- Only attributes of tasks, descriptions, pipes and memory differ. -/
def AttrsOnly (k k' : Kernel) : Prop :=
  ∃ (attrs : Nat → Attrs) (phys : PhysMem) (userInts : Nat → Nat → BitVec 32)
    (files : Nat → FileDescription) (pipes : Nat → Pipe)
    (livePipes : Finset Nat) (vfs : MountTable) (ticks : Int),
    k' = { k with
      tasks := fun t => (k.tasks t).withAttrs (attrs t)
      phys := phys
      userInts := userInts
      files := files
      pipes := pipes
      livePipes := livePipes
      vfs := vfs
      ticksRemaining := ticks }

namespace AttrsOnly

theorem refl (k : Kernel) : AttrsOnly k k :=
  ⟨fun t => (k.tasks t).attrs, k.phys, k.userInts, k.files, k.pipes,
    k.livePipes, k.vfs, k.ticksRemaining, rfl⟩

theorem trans (h : AttrsOnly k k') (h' : AttrsOnly k' k'') :
    AttrsOnly k k'' := by
  obtain ⟨_, _, _, _, _, _, _, _, rfl⟩ := h
  obtain ⟨attrs, phys, ints, files, pipes, livePipes, vfs, ticks, rfl⟩ := h'
  exact ⟨attrs, phys, ints, files, pipes, livePipes, vfs, ticks, rfl⟩

theorem of_filesOnly (h : FilesOnly k k') : AttrsOnly k k' := by
  obtain ⟨tables, files, pipes, livePipes, vfs, rfl⟩ := h
  exact ⟨fun t => { (k.tasks t).attrs with fdTable := tables t }, k.phys,
    k.userInts, files, pipes, livePipes, vfs, k.ticksRemaining, rfl⟩

theorem modifyTask (k : Kernel) (t : Nat) (h : ∀ x, f x = x.withAttrs (f x).attrs) :
    AttrsOnly k (k.modifyTask t f) := by
  refine ⟨fun u => ((k.modifyTask t f).tasks u).attrs, k.phys, k.userInts,
    k.files, k.pipes, k.livePipes, k.vfs, k.ticksRemaining, ?_⟩
  rw [Kernel.modifyTask, Kernel.mk.injEq]
  refine ⟨rfl, rfl, ?_, rfl, rfl, rfl, rfl, rfl, rfl, rfl, rfl, rfl, rfl, rfl,
    rfl⟩
  funext u
  by_cases hu : u = t
  · subst hu
    simp only [Function.update_self]
    exact h _
  · simp only [Function.update_of_ne hu]
    rfl

theorem setPhys (k : Kernel) (phys : PhysMem) :
    AttrsOnly k { k with phys := phys } :=
  ⟨fun t => (k.tasks t).attrs, phys, k.userInts, k.files, k.pipes, k.livePipes,
    k.vfs, k.ticksRemaining, rfl⟩

theorem storeStatus (k : Kernel) (cr3 : Nat) (wstatus : Option Nat) (word : BitVec 32) :
    AttrsOnly k (GlitchedOS.storeStatus k cr3 wstatus word) := by
  cases wstatus with
  | none => exact refl k
  | some addr =>
      exact ⟨fun t => (k.tasks t).attrs, k.phys, _, k.files, k.pipes,
        k.livePipes, k.vfs, k.ticksRemaining, rfl⟩

theorem modifyCurrent (k : Kernel)
    (h : ∀ x, f x = x.withAttrs (f x).attrs) : AttrsOnly k (k.modifyCurrent f) :=
  modifyTask k k.current h

theorem enterSyscall (k : Kernel) (number : Int) :
    AttrsOnly k (GlitchedOS.enterSyscall k number) := by
  rw [GlitchedOS.enterSyscall]
  exact modifyCurrent k fun _ => rfl

theorem leaveSyscall (h : AttrsOnly k r.2) :
    AttrsOnly k (GlitchedOS.leaveSyscall r) :=
  h.trans (enterSyscall r.2 r.1)

theorem sigprocmask (k : Kernel) (how : Int) (set : BitVec 32) :
    AttrsOnly k (GlitchedOS.sigprocmask k how set).2 := by
  have hinstall : ∀ mask : BitVec 32, AttrsOnly k
      (k.modifyCurrent fun x => { x with signalMask := mask }) := fun _ =>
    modifyCurrent k fun _ => rfl
  rw [GlitchedOS.sigprocmask]
  dsimp only
  split
  · exact hinstall _
  split
  · exact hinstall _
  split
  · exact hinstall _
  · exact refl k

theorem setsid (k : Kernel) : AttrsOnly k (GlitchedOS.setsid k).2 := by
  have hset : AttrsOnly k (k.modifyCurrent fun x =>
      { x with sid := x.pid, pgid := x.pid }) :=
    modifyCurrent k fun _ => rfl
  rw [GlitchedOS.setsid]
  split
  · exact refl k
  · exact hset

theorem setpgid {pid pgid : Int}
    (h : GlitchedOS.setpgid fuel k pid pgid = .ok r) : AttrsOnly k r.2 := by
  rcases setpgid_ok h with heq | ⟨t, p, heq⟩
  · rw [heq]
    exact refl k
  · rw [heq]
    exact modifyTask k t fun _ => rfl

theorem setCurrent {t : Nat} (h : AttrsOnly { k with current := t } k') :
    AttrsOnly k { k' with current := k.current } := by
  obtain ⟨attrs, phys, ints, files, pipes, livePipes, vfs, ticks, rfl⟩ := h
  exact ⟨attrs, phys, ints, files, pipes, livePipes, vfs, ticks, rfl⟩

theorem spawnAction {env : CloseEnv} {pid : Int} {a : SpawnAction}
    (h : GlitchedOS.spawnAction env fuel k new pid a = .ok r) :
    AttrsOnly k r.2 := by
  rw [GlitchedOS.spawnAction] at h
  dsimp only at h
  split at h
  · obtain rfl := Except.ok.inj h
    exact setCurrent (of_filesOnly (FilesOnly.dup2 _ _ _ _))
  · obtain rfl := Except.ok.inj h
    exact setCurrent (sigprocmask _ _ _)
  · rw [bind_ok_iff] at h
    obtain ⟨r', hset, h⟩ := h
    obtain rfl := Except.ok.inj h
    exact setCurrent (setpgid hset)
  · obtain rfl := Except.ok.inj h
    exact setCurrent (setsid _)
  · obtain rfl := Except.ok.inj h
    exact refl k

theorem spawnActions {env : CloseEnv} {pid : Int} :
    ∀ {actions : List SpawnAction} {k : Kernel} {r : Int × Kernel},
      GlitchedOS.spawnActions env fuel new pid actions k = .ok r →
        AttrsOnly k r.2
  | [], k, r, h => by
      obtain rfl := Except.ok.inj h
      exact refl k
  | a :: rest, k, r, h => by
      rw [GlitchedOS.spawnActions, bind_ok_iff] at h
      obtain ⟨⟨res, k₁⟩, hfirst, h⟩ := h
      have hone := spawnAction hfirst
      dsimp only at h
      split at h
      · obtain rfl := Except.ok.inj h
        exact hone
      · exact hone.trans (spawnActions h)

theorem loadProgram {cr3 : Nat} {res : Int} {program : Option (BitVec 64 × Nat × BitVec 64)}
    (h : GlitchedOS.loadProgram env k cr3 = .ok (res, program, k')) :
    AttrsOnly k k' := by
  obtain ⟨phys, rfl⟩ := loadProgram_phys h
  exact setPhys k phys

theorem sigaction (k : Kernel) (sig : Nat) (handler : Handler) :
    AttrsOnly k (GlitchedOS.sigaction k sig handler).2 := by
  have hset : AttrsOnly k (k.modifyCurrent fun x => { x with
      signalHandlers := Function.update x.signalHandlers sig handler }) :=
    modifyCurrent k fun _ => rfl
  rw [GlitchedOS.sigaction]
  split
  · exact refl k
  split
  · exact refl k
  · exact hset

theorem proj {α : Type} (π : Task → α) (hπ : ∀ x a, π (Task.withAttrs x a) = π x)
    (h : AttrsOnly k k') (t : Nat) : π (k'.tasks t) = π (k.tasks t) := by
  obtain ⟨attrs, _, _, _, _, _, _, _, rfl⟩ := h
  exact hπ _ _

end AttrsOnly

theorem reportsNone_ok {x : Except Stop Kernel} {reports : List (Nat × WaitEvent)}
    (h : (do .ok ([], ← x)) = Except.ok (reports, k')) : x = .ok k' := by
  rw [bind_ok_iff] at h
  obtain ⟨k₁, hx, hk⟩ := h
  obtain ⟨-, rfl⟩ := Prod.mk.inj (Except.ok.inj hk)
  exact hx

theorem kill_ok {pid : Int} {sig : Nat} {reports : List (Nat × WaitEvent)}
    (h : Op.run fuel k (.kill pid sig) = .ok (reports, k')) :
    reports = [] ∧ ∃ res k₁, k' = leaveSyscall (res, k₁) ∧
      ((sig < 1 ∨ 31 < sig) ∧ k = k₁ ∨ ¬(sig < 1 ∨ 31 < sig) ∧
        ∃ ring, ringFrom k fuel initTask = .ok ring ∧ k₁ = (killLoop pid sig ring k).2) := by
  rw [Op.run, bind_ok_iff] at h
  obtain ⟨⟨res, k₁⟩, hkill, h⟩ := h
  obtain ⟨rfl, rfl⟩ := Prod.mk.inj (Except.ok.inj h)
  refine ⟨rfl, res, k₁, rfl, ?_⟩
  rw [GlitchedOS.kill] at hkill
  split at hkill
  · exact .inl ⟨‹_›, (Prod.mk.inj (Except.ok.inj hkill)).2⟩
  · rw [bind_ok_iff] at hkill
    obtain ⟨ring, hring, hloop⟩ := hkill
    exact .inr ⟨‹_›, ring, hring, (Prod.mk.inj (Except.ok.inj hloop)).2.symm⟩

/-- The operations that deal with descriptors and mounts only. -/
def Op.onlyFiles : Op → Bool
  | .fdOpen _ _ | .fdClose _ _ | .fcntl _ _ _ | .dup2 _ _ _ | .pipe _ | .fdSocket _ _
  | .mount _ _ _ _ | .unmount _ _ _ => true
  | _ => false

theorem sysMounts_ok {r : Option (Int × MountTable)} (h : sysMounts k r = .ok k') :
    ∃ r : Int × Kernel, FilesOnly k r.2 ∧ k' = leaveSyscall r := by
  cases r with
  | none => cases h
  | some r => exact ⟨_, .setVfs k r.2, (Except.ok.inj h).symm⟩

theorem Op.files_ok {op : Op} {reports : List (Nat × WaitEvent)}
    (hop : op.onlyFiles = true) (hrun : op.run fuel k = .ok (reports, k')) :
    ∃ r : Int × Kernel, FilesOnly k r.2 ∧ k' = leaveSyscall r := by
  cases op with
  | fdOpen env flags =>
      rw [Op.run, bind_ok_iff] at hrun
      obtain ⟨r, hopen, hk⟩ := hrun
      obtain ⟨-, rfl⟩ := Prod.mk.inj (Except.ok.inj hk)
      exact ⟨r, .fdOpen hopen, rfl⟩
  | fdClose env fd =>
      obtain ⟨-, rfl⟩ := Prod.mk.inj (Except.ok.inj hrun)
      exact ⟨_, .fdClose env k fd, rfl⟩
  | fcntl fd cmd arg =>
      obtain ⟨-, rfl⟩ := Prod.mk.inj (Except.ok.inj hrun)
      exact ⟨_, .fcntl k fd cmd arg, rfl⟩
  | dup2 env fd newFd =>
      obtain ⟨-, rfl⟩ := Prod.mk.inj (Except.ok.inj hrun)
      exact ⟨_, .dup2 env k fd newFd, rfl⟩
  | pipe p =>
      obtain ⟨-, rfl⟩ := Prod.mk.inj (Except.ok.inj hrun)
      exact ⟨_, .pipe k p, rfl⟩
  | fdSocket res sock =>
      obtain ⟨-, rfl⟩ := Prod.mk.inj (Except.ok.inj hrun)
      exact ⟨_, .fdSocket k res sock, rfl⟩
  | mount env walk target new =>
      rw [Op.run, bind_ok_iff] at hrun
      obtain ⟨k₁, hmount, hk⟩ := hrun
      obtain ⟨-, rfl⟩ := Prod.mk.inj (Except.ok.inj hk)
      exact sysMounts_ok hmount
  | unmount walk path res =>
      rw [Op.run, bind_ok_iff] at hrun
      obtain ⟨k₁, hmount, hk⟩ := hrun
      obtain ⟨-, rfl⟩ := Prod.mk.inj (Except.ok.inj hk)
      exact sysMounts_ok hmount
  | switchTask _ | userCode _ | deliverSignals _ | runNext | checkBlockedTasks _
  | createKworker _ _ | kworkerExit | sleep _ | fork _ | spawn _ _ _ _ | execve _ _ _ _
  | exit _ _ | waitpid _ _ _ | kill _ _ | raise _ | sigaction _ _ | sigprocmask _ _
  | setpgid _ _ | setsid => cases hop

/-- The operations that neither schedule nor touch the process tree. -/
def Op.plain : Op → Bool
  | .userCode _ | .sigaction _ _ | .fdOpen _ _ | .fdClose _ _ | .fcntl _ _ _
  | .dup2 _ _ _ | .pipe _ | .fdSocket _ _ | .sigprocmask _ _ | .setpgid _ _
  | .setsid | .mount _ _ _ _ | .unmount _ _ _ => true
  | _ => false

theorem Op.plain_attrs {op : Op} {reports : List (Nat × WaitEvent)}
    (hplain : op.plain = true) (hrun : op.run fuel k = .ok (reports, k')) :
    AttrsOnly k k' := by
  cases op with
  | userCode regs =>
      obtain ⟨-, rfl⟩ := Prod.mk.inj (Except.ok.inj hrun)
      exact .modifyCurrent k fun _ => rfl
  | sigaction sig handler =>
      obtain ⟨-, rfl⟩ := Prod.mk.inj (Except.ok.inj hrun)
      exact .leaveSyscall (.sigaction k sig handler)
  | sigprocmask how set =>
      obtain ⟨-, rfl⟩ := Prod.mk.inj (Except.ok.inj hrun)
      exact .leaveSyscall (.sigprocmask k how set)
  | setpgid pid pgid =>
      rw [Op.run, bind_ok_iff] at hrun
      obtain ⟨r, hset, hk⟩ := hrun
      obtain ⟨-, rfl⟩ := Prod.mk.inj (Except.ok.inj hk)
      exact .leaveSyscall (.setpgid hset)
  | setsid =>
      obtain ⟨-, rfl⟩ := Prod.mk.inj (Except.ok.inj hrun)
      exact .leaveSyscall (.setsid k)
  | fdOpen _ _ | fdClose _ _ | fcntl _ _ _ | dup2 _ _ _ | pipe _ | fdSocket _ _
  | mount _ _ _ _ | unmount _ _ _ =>
      obtain ⟨r, hfiles, rfl⟩ := Op.files_ok rfl hrun
      exact .leaveSyscall (.of_filesOnly hfiles)
  | switchTask _ | deliverSignals _ | runNext | checkBlockedTasks _
  | createKworker _ _ | kworkerExit | sleep _ | fork _ | spawn _ _ _ _
  | execve _ _ _ _ | exit _ _ | waitpid _ _ _ | kill _ _ | raise _ =>
      cases hplain

theorem enterSyscall_proj {α : Type} (π : Task → α)
    (hπ : ∀ x frame, π { x with iframe := frame } = π x) (k : Kernel) (n : Int)
    (t : Nat) : π ((enterSyscall k n).tasks t) = π (k.tasks t) := by
  rw [enterSyscall, Kernel.modifyCurrent]
  exact Kernel.modifyTask_proj π _ _ _ (hπ _ _)

/-! ### Pending signals -/

/-- Only the pending signals of tasks differ. -/
def PendingOnly (k k' : Kernel) : Prop :=
  ∃ pending : Nat → BitVec 32, k' = { k with
    tasks := fun t => { k.tasks t with pendingSignals := pending t } }

namespace PendingOnly

theorem refl (k : Kernel) : PendingOnly k k :=
  ⟨fun t => (k.tasks t).pendingSignals, rfl⟩

theorem trans (h : PendingOnly k k') (h' : PendingOnly k' k'') :
    PendingOnly k k'' := by
  obtain ⟨_, rfl⟩ := h
  obtain ⟨pending, rfl⟩ := h'
  exact ⟨pending, rfl⟩

/-- A write to one task, and any pending signals. -/
theorem of_modifyTask (k : Kernel) (t : Nat) {g : Task → Task}
    (h : f (k.tasks t) = { g (k.tasks t) with
      pendingSignals := (f (k.tasks t)).pendingSignals }) :
    PendingOnly (k.modifyTask t g) (k.modifyTask t f) := by
  refine ⟨fun u => ((k.modifyTask t f).tasks u).pendingSignals, ?_⟩
  rw [Kernel.modifyTask, Kernel.modifyTask, Kernel.mk.injEq]
  refine ⟨rfl, rfl, ?_, rfl, rfl, rfl, rfl, rfl, rfl, rfl, rfl, rfl, rfl, rfl,
    rfl⟩
  funext u
  by_cases hu : u = t
  · subst hu
    simp only [Function.update_self]
    exact h
  · simp only [Function.update_of_ne hu]

theorem modifyTask (k : Kernel) (t : Nat)
    (h : ∀ x, f x = { x with pendingSignals := (f x).pendingSignals }) :
    PendingOnly k (k.modifyTask t f) := by
  have hself : k.modifyTask t id = k := by
    rw [Kernel.modifyTask, id, Function.update_eq_self]
  have hwrite := of_modifyTask k t (f := f) (g := id) (h _)
  rwa [hself] at hwrite

theorem notifyParent (k : Kernel) (t : Nat) :
    PendingOnly k (GlitchedOS.notifyParent k t) := by
  rw [GlitchedOS.notifyParent]
  split
  · exact refl k
  · exact modifyTask k _ fun _ => rfl

theorem proj {α : Type} (π : Task → α)
    (hπ : ∀ x pending, π { x with pendingSignals := pending } = π x)
    (h : PendingOnly k k') (t : Nat) : π (k'.tasks t) = π (k.tasks t) := by
  obtain ⟨_, rfl⟩ := h
  exact hπ _ _

end PendingOnly

/-- What `signal_task` does to the task, up to the pending signals. -/
def Task.signalled (x : Task) (sig : Nat) : Task :=
  if stops x sig then
    { x with state := .stopped, stopSignal := sig, waitpidEvent := 1 }
  else if sig = sigCont ∧ x.state = .stopped then
    { x with state := .ready, waitpidEvent := 2 }
  else x

theorem stops_ne_sigCont {x : Task} {sig : Nat} (h : stops x sig = true) :
    sig ≠ sigCont := by
  rintro rfl
  simp [stops, signalDefaultActions, sigCont] at h

/-- `signal_task` changes the task it is called for, and pending signals. -/
theorem signalTask_pending (k : Kernel) (t sig : Nat) :
    PendingOnly (k.modifyTask t (·.signalled sig)) (signalTask k t sig) := by
  have hstops : ∀ p, stops { k.tasks t with pendingSignals := p } sig =
      stops (k.tasks t) sig := fun _ => rfl
  rw [signalTask]
  rw [Kernel.modifyTask_self, hstops]
  by_cases hstop : stops (k.tasks t) sig = true
  · rw [if_pos hstop, if_neg fun h => stops_ne_sigCont hstop h.1]
    refine .trans ?_ (.notifyParent _ t)
    rw [Kernel.modifyTask_modifyTask]
    refine PendingOnly.of_modifyTask k t ?_
    rw [Task.signalled, if_pos hstop]
  · rw [if_neg hstop, Kernel.modifyTask_self]
    by_cases hcont : sig = sigCont ∧ (k.tasks t).state = .stopped
    · rw [if_pos hcont]
      refine .trans ?_ (.notifyParent _ t)
      rw [Kernel.modifyTask_modifyTask]
      refine PendingOnly.of_modifyTask k t ?_
      rw [Task.signalled, if_neg hstop, if_pos hcont]
    · rw [if_neg hcont]
      refine PendingOnly.of_modifyTask k t ?_
      rw [Task.signalled, if_neg hstop, if_neg hcont]

theorem Task.signalled_proj {α : Type} (π : Task → α)
    (hπ : ∀ x s g e, π { x with state := s, stopSignal := g, waitpidEvent := e } =
      π x) (x : Task) (sig : Nat) : π (x.signalled sig) = π x := by
  rw [signalled]
  split
  · exact hπ x _ _ _
  split
  · exact hπ x _ x.stopSignal _
  · rfl

theorem signalTask_proj {α : Type} (π : Task → α)
    (hpending : ∀ x p, π { x with pendingSignals := p } = π x)
    (hπ : ∀ x s g e, π { x with state := s, stopSignal := g, waitpidEvent := e } =
      π x) (k : Kernel) (t sig u : Nat) :
    π ((signalTask k t sig).tasks u) = π (k.tasks u) :=
  ((signalTask_pending k t sig).proj π hpending u).trans
    (k.modifyTask_proj π t u (Task.signalled_proj π hπ _ sig))

theorem signalTask_current (k : Kernel) (t sig : Nat) :
    (signalTask k t sig).current = k.current := by
  obtain ⟨_, h⟩ := signalTask_pending k t sig
  rw [h]
  rfl

theorem killTarget_signalTask (pid : Int) (k : Kernel) (t sig u : Nat) :
    killTarget (signalTask k t sig) pid u = killTarget k pid u := by
  have hpid := signalTask_proj Task.pid (fun _ _ => rfl) (fun _ _ _ _ => rfl)
    k t sig
  have hpgid := signalTask_proj Task.pgid (fun _ _ => rfl) (fun _ _ _ _ => rfl)
    k t sig
  rw [killTarget, killTarget, Kernel.currentTask, Kernel.currentTask,
    signalTask_current, hpid, hpgid, hpgid]

theorem signalTask_zombie {t sig u : Nat}
    (h : ((signalTask k t sig).tasks u).state = .zombie) :
    (k.tasks u).state = .zombie := by
  rw [(signalTask_pending k t sig).proj Task.state fun _ _ => rfl,
    Kernel.modifyTask_apply] at h
  split at h
  · rw [Task.signalled] at h
    split at h
    · cases h
    split at h
    · cases h
    · exact h
  · exact h

/-! ### Garbage collection -/

/-- The ring without the deleted task `t`, which comes after `p`. -/
def cutTask (k : Kernel) (p t : Nat) : Kernel :=
  { k with phys := freePageTables k.phys (k.tasks t).cr3 }.modifyTask p fun x =>
    { x with next := (k.tasks t).next }

/-- The task `t` is freed. -/
def dropTask (k : Kernel) (t : Nat) : Kernel :=
  { k with
    current := if k.current = t then (k.tasks t).next else k.current
    rr := if k.rr = t then (k.tasks t).next else k.rr
    allocated := k.allocated.erase t }

/-- One round of `gc_tasks`: the end, a task kept, or a task freed. -/
theorem gcLoop_cases {n p t : Nat} (h : gcLoop (n + 1) k p t = .ok k') :
    (t = initTask ∧ k' = k) ∨
      (t ≠ initTask ∧ (k.tasks t).state ≠ .deleted ∧
        gcLoop n k t (k.tasks t).next = .ok k') ∨
      (t ≠ initTask ∧ (k.tasks t).state = .deleted ∧ ∃ k₁,
        (if ((cutTask k p t).tasks t).isKworker then k₁ = cutTask k p t
          else unlinkChild n (cutTask k p t) t = .ok k₁) ∧
        gcLoop n (dropTask k₁ t) p (k₁.tasks t).next = .ok k') := by
  rw [gcLoop] at h
  split at h
  · rename_i ht
    exact Or.inl ⟨ht, (Except.ok.inj h).symm⟩
  rename_i ht
  split at h
  · rename_i hdel
    dsimp only at h
    rw [bind_ok_iff] at h
    obtain ⟨k₁, hunlink, h⟩ := h
    refine Or.inr (Or.inr ⟨ht, hdel, k₁, ?_, ?_⟩)
    · rw [cutTask]
      split at hunlink
      · rename_i hk
        rw [if_pos hk]
        exact (Except.ok.inj hunlink).symm
      · rename_i hk
        rw [if_neg hk]
        exact hunlink
    · rw [← h, dropTask]
      by_cases hc : k₁.current = t <;> by_cases hr : k₁.rr = t <;>
        simp [hc, hr]
  · rename_i hdel
    exact Or.inr (Or.inl ⟨ht, hdel, h⟩)

/-! ### New tasks -/

@[simp] theorem allocTask_new (k : Kernel) (new : Nat) (phys : PhysMem)
    (x : Task) : (allocTask k new phys x).tasks new = x := by
  simp [allocTask]

theorem allocTask_ne (k : Kernel) {u : Nat} (phys : PhysMem) (x : Task)
    (h : u ≠ new) : (allocTask k new phys x).tasks u = k.tasks u := by
  simp [allocTask, h]

theorem fork_ok (h : fork k new = .ok k') :
    ∃ cr3 phys k₁, clonePageTables k.phys k.currentTask.cr3 = .ok (cr3, phys) ∧
      k₁ = addRefs k.currentTask.fdTable (allocTask k new phys
        { k.currentTask with state := .ready, cr3 := cr3 }) ∧
      k' = forkLink k₁ new := by
  rw [fork] at h
  split at h
  · cases h
  rw [bind_ok_iff] at h
  obtain ⟨⟨cr3, phys⟩, hclone, h⟩ := h
  refine ⟨cr3, phys, _, liftPaging_ok.mp hclone, rfl, ?_⟩
  dsimp only at h
  rw [allocTask_new] at h
  exact (Except.ok.inj h).symm

/-- The task `create_kworker` makes. -/
def kworkerTask (k : Kernel) (cr3 : Nat) (regs : Iframe) : Task :=
  { k.tasks initTask with
    state := .ready, cr3 := cr3, iframe := regs, isKworker := true,
    next := k.currentTask.next, child := none, nextSibling := none,
    pid := k.lastPid + 1, parent := none }

theorem createKworker_ok {regs : Iframe} (h : createKworker k new regs = .ok k') :
    ∃ cr3 phys, clonePageTables k.phys k.basePml4 = .ok (cr3, phys) ∧
      k' = (allocTask { k with lastPid := k.lastPid + 1 } new phys
        (kworkerTask k cr3 regs)).modifyTask k.current fun x =>
          { x with next := new } := by
  rw [createKworker] at h
  split at h
  · cases h
  rw [bind_ok_iff] at h
  obtain ⟨⟨cr3, phys⟩, hclone, h⟩ := h
  exact ⟨cr3, phys, liftPaging_ok.mp hclone, (Except.ok.inj h).symm⟩

theorem newTask_ok {pid : Int} (h : newTask k new pid = .ok k') :
    ∃ cr3 phys, clonePageTables k.phys k.basePml4 = .ok (cr3, phys) ∧
      k' = addRefs k.currentTask.fdTable (allocTask k new phys
        { k.currentTask with state := .ready, inSignal := false, cr3 := cr3,
                             pid := pid }) := by
  rw [newTask, bind_ok_iff] at h
  obtain ⟨⟨cr3, phys⟩, hclone, h⟩ := h
  refine ⟨cr3, phys, liftPaging_ok.mp hclone, ?_⟩
  dsimp only at h
  rw [allocTask_new] at h
  exact (Except.ok.inj h).symm

/-- The three ways `add_task` ends: an argument is refused and nothing happens;
the new task is made and something fails; or it is made and linked. -/
theorem addTask_ok {args : ExecArgs} {parent : Option Nat} {pid res : Int}
    (h : addTask env fuel k args parent pid new = .ok (res, k')) :
    (validateArgs args = .error res ∧ k' = k) ∨
      ∃ actions k₁, validateArgs args = .ok actions ∧
        newTask k new pid = .ok k₁ ∧
        (AttrsOnly k₁ k' ∨ ∃ p k₂, parent = some p ∧ res = pid ∧
          AttrsOnly k₁ k₂ ∧ k' = linkTask k₂ new p) := by
  rw [addTask] at h
  split at h
  · rename_i e hargs
    obtain ⟨rfl, rfl⟩ := Prod.mk.inj (Except.ok.inj h)
    exact Or.inl ⟨hargs, rfl⟩
  rename_i actions hargs
  rw [bind_ok_iff] at h
  obtain ⟨k₁, hnew, h⟩ := h
  rw [bind_ok_iff] at h
  obtain ⟨⟨res', k₂⟩, hactions, h⟩ := h
  have hfirst := AttrsOnly.spawnActions hactions
  refine Or.inr ⟨actions, k₁, hargs, hnew, ?_⟩
  dsimp only at h
  split at h
  · obtain ⟨-, rfl⟩ := Prod.mk.inj (Except.ok.inj h)
    exact Or.inl hfirst
  have hclosed := hfirst.trans (.of_filesOnly
    (FilesOnly.closeOnExec env.closeEnv new k₂))
  rw [startTask, bind_ok_iff] at h
  obtain ⟨⟨res₂, program, k₃⟩, hload, h⟩ := h
  have hloaded := hclosed.trans (.loadProgram hload)
  dsimp only at h
  split at h
  · obtain ⟨-, rfl⟩ := Prod.mk.inj (Except.ok.inj h)
    exact Or.inl hloaded
  split at h
  · cases h
  · obtain ⟨rfl, rfl⟩ := Prod.mk.inj (Except.ok.inj h)
    exact Or.inr ⟨_, _, rfl, rfl,
      hloaded.trans (.modifyTask _ _ fun _ => rfl), rfl⟩

theorem spawn_ok {args : ExecArgs} {res : Int}
    (h : spawn env fuel k args new = .ok (res, k')) :
    ∃ k₁, addTask env fuel { k with lastPid := k.lastPid + 1 } args
        (some k.current) (k.lastPid + 1) new = .ok (res, k₁) ∧
      ((res ≠ k₁.lastPid ∧ k' = k₁) ∨
        (res = k₁.lastPid ∧ k' = { k₁.modifyCurrent fun x =>
          { x with state := .ready, iframe := { x.iframe with rax := res } }
          with switching := true })) := by
  rw [spawn] at h
  split at h
  · cases h
  dsimp only at h
  rw [bind_ok_iff] at h
  obtain ⟨⟨res', k₁⟩, hadd, h⟩ := h
  dsimp only at h
  split at h
  · rename_i hne
    obtain ⟨rfl, rfl⟩ := Prod.mk.inj (Except.ok.inj h)
    exact ⟨_, hadd, Or.inl ⟨hne, rfl⟩⟩
  · rename_i heq
    obtain ⟨rfl, rfl⟩ := Prod.mk.inj (Except.ok.inj h)
    exact ⟨_, hadd, Or.inr ⟨not_not.mp heq, rfl⟩⟩

theorem execve_ok {args : ExecArgs} {res : Int}
    (h : execve env fuel k args new = .ok (res, k')) :
    ∃ k₁, addTask env fuel k { args with actions := none }
        k.currentTask.parent k.currentTask.pid new = .ok (res, k₁) ∧
      ((res ≠ (k₁.tasks k.current).pid ∧ k' = k₁) ∨
        (res = (k₁.tasks k.current).pid ∧ ∃ ring k₂ k₃,
          ringFrom (k₁.modifyTask k.current fun x =>
            { x with state := .deleted }) fuel initTask = .ok ring ∧
          k₂ = redirectWaiters k.current new (ring.tail ++ [initTask])
            (k₁.modifyTask k.current fun x => { x with state := .deleted }) ∧
          k₃ = releaseProcessFds env.closeEnv k₂ ∧
          execveFinish fuel k₃ k.current new = .ok k')) := by
  rw [execve] at h
  dsimp only at h
  rw [bind_ok_iff] at h
  obtain ⟨⟨res', k₁⟩, hadd, h⟩ := h
  dsimp only at h
  split at h
  · rename_i hne
    obtain ⟨rfl, rfl⟩ := Prod.mk.inj (Except.ok.inj h)
    exact ⟨_, hadd, Or.inl ⟨hne, rfl⟩⟩
  · rename_i heq
    simp only [bind_ok_iff] at h
    obtain ⟨ring, hring, k₄, hfinish, h⟩ := h
    obtain ⟨rfl, rfl⟩ := Prod.mk.inj (Except.ok.inj h)
    exact ⟨_, hadd, Or.inr ⟨not_not.mp heq, ring, _, _, hring, rfl, rfl, hfinish⟩⟩

theorem execveFinish_ok {old : Nat} (h : execveFinish fuel k old new = .ok k') :
    ∃ k₁, reparent fuel k new (k.tasks old).child = .ok k₁ ∧
      k' = { k₁ with switching := true } := by
  rw [execveFinish, bind_ok_iff] at h
  obtain ⟨k₁, hrep, h⟩ := h
  exact ⟨k₁, hrep, (Except.ok.inj h).symm⟩

theorem redirectWaiters_proj {α : Type} (π : Task → α)
    (hπ : ∀ x b, π { x with blockedProcess := b } = π x) (old new : Nat) :
    ∀ (l : List Nat) (k : Kernel) (t : Nat),
      π ((redirectWaiters old new l k).tasks t) = π (k.tasks t)
  | [], _, _ => rfl
  | u :: rest, k, t => by
      rw [redirectWaiters, redirectWaiters_proj π hπ old new rest]
      split
      · exact Kernel.modifyTask_proj π k u t (hπ _ _)
      · rfl

/-! ### Exit and signals -/

theorem exitTask_ok {ret : Int} (h : exitTask fuel k ret = .ok k') :
    ∃ parent k₂, k.currentTask.parent = some parent ∧
      reparent fuel ((k.modifyCurrent fun x =>
          { x with state := .zombie, returnCode := ret }).modifyTask parent
        fun x => { x with pendingSignals := x.pendingSignals ||| sigBit sigChld })
        initTask k.currentTask.child = .ok k₂ ∧
      k' = { k₂ with switching := true } := by
  have hcur : ∀ {α : Type} (π : Task → α),
      (∀ x s r, π { x with state := s, returnCode := r } = π x) →
      π (k.modifyCurrent fun x =>
        { x with state := .zombie, returnCode := ret }).currentTask =
        π k.currentTask :=
    fun π hstate => Kernel.modifyTask_proj π _ _ _ (hstate _ _ _)
  rw [exitTask] at h
  dsimp only at h
  split at h
  · cases h
  rename_i parent hparent
  rw [bind_ok_iff] at h
  obtain ⟨k₂, hrep, h⟩ := h
  refine ⟨parent, k₂, ?_, ?_, (Except.ok.inj h).symm⟩
  · rw [← hparent]
    exact (hcur Task.parent fun _ _ _ => rfl).symm
  · rw [← hrep]
    congr 1
    refine (hcur Task.child fun _ _ _ => rfl).symm.trans ?_
    exact (Kernel.modifyTask_proj Task.child _ _ _ rfl).symm

theorem exit_ok {env : CloseEnv} {ret : Int} (h : exit env fuel k ret = .ok k') :
    ∃ k₁, k.current ≠ initTask ∧ k₁ = releaseProcessFds env k ∧
      exitTask fuel k₁ ret = .ok k' := by
  rw [exit] at h
  split at h
  · cases h
  · exact ⟨_, ‹_›, rfl, h⟩

/-- What delivering a signal may change of a task. -/
def Task.withSignals (x : Task) (pending : BitVec 32) (iframe interrupted : Iframe)
    (inSignal : Bool) : Task :=
  { x with pendingSignals := pending, iframe := iframe,
           signalInterruptedIframe := interrupted, inSignal := inSignal }

theorem deliverSignal_task (deliverable : BitVec 32) (i : Nat) (x : Task) :
    ∃ p f g b, (deliverSignal deliverable i x).1 = x.withSignals p f g b := by
  rw [deliverSignal]
  dsimp only
  split
  · exact ⟨x.pendingSignals, x.iframe, x.signalInterruptedIframe, x.inSignal, rfl⟩
  split
  · split <;> exact ⟨_, x.iframe, x.signalInterruptedIframe, x.inSignal, rfl⟩
  · exact ⟨_, x.iframe, x.signalInterruptedIframe, x.inSignal, rfl⟩
  · split
    · exact ⟨_, x.iframe, x.signalInterruptedIframe, x.inSignal, rfl⟩
    · exact ⟨_, _, _, true, rfl⟩

theorem deliverLoop_task (deliverable : BitVec 32) : ∀ (n i : Nat) (x : Task),
    ∃ p f g b, (deliverLoop deliverable n i x).1 = x.withSignals p f g b
  | 0, _, x =>
      ⟨x.pendingSignals, x.iframe, x.signalInterruptedIframe, x.inSignal, rfl⟩
  | n + 1, i, x => by
      rw [deliverLoop]
      obtain ⟨p, f, g, b, heq⟩ := deliverSignal_task deliverable i x
      split
      · rename_i y ret hy
        rw [hy] at heq
        exact ⟨p, f, g, b, heq⟩
      · rename_i y hy
        rw [hy] at heq
        obtain ⟨p', f', g', b', heq'⟩ := deliverLoop_task deliverable n (i + 1) y
        refine ⟨p', f', g', b', ?_⟩
        rw [heq', show y = _ from heq]
        rfl

/-- `deliver_signals` changes signal fields of the current task, and may then
exit. -/
theorem deliverSignals_ok {env : CloseEnv} (h : deliverSignals env fuel k = .ok k') :
    ∃ p f g b, k' = k.modifyCurrent (·.withSignals p f g b) ∨
      ((k.currentTask.pendingSignals &&& ~~~k.currentTask.signalMask) ≠ 0#32 ∧
        ∃ ret, exit env fuel (k.modifyCurrent (·.withSignals p f g b)) ret =
          .ok k') := by
  have hself : k = k.modifyCurrent (·.withSignals k.currentTask.pendingSignals
      k.currentTask.iframe k.currentTask.signalInterruptedIframe
      k.currentTask.inSignal) := by
    rw [Kernel.modifyCurrent, Kernel.modifyTask]
    have : Task.withSignals (k.tasks k.current) k.currentTask.pendingSignals
      k.currentTask.iframe k.currentTask.signalInterruptedIframe
      k.currentTask.inSignal = k.tasks k.current := rfl
    rw [this, Function.update_eq_self]
  rw [deliverSignals] at h
  dsimp only at h
  split at h
  · obtain rfl := Except.ok.inj h
    exact ⟨_, _, _, _, Or.inl hself⟩
  rename_i hpending
  split at h
  · obtain rfl := Except.ok.inj h
    exact ⟨_, _, _, _, Or.inl hself⟩
  obtain ⟨p, f, g, b, heq⟩ := deliverLoop_task
    (k.currentTask.pendingSignals &&& ~~~k.currentTask.signalMask) 31 0
    k.currentTask
  have hmod : (k.modifyCurrent fun _ => (deliverLoop
      (k.currentTask.pendingSignals &&& ~~~k.currentTask.signalMask) 31 0
      k.currentTask).1) = k.modifyCurrent (·.withSignals p f g b) := by
    rw [heq]
    rfl
  refine ⟨p, f, g, b, ?_⟩
  rw [← hmod]
  split at h
  · exact Or.inl (Except.ok.inj h).symm
  · rename_i ret _
    exact Or.inr ⟨hpending, ret, h⟩

/-! ### Choosing a task -/

theorem getNextTask_ok {next : Option Nat} (h : getNextTask fuel k = .ok (next, k')) :
    ∃ rr, nextLoop k k.rr fuel k.rr = .ok (next, rr) ∧
      k' = { k with rr := rr } := by
  rw [getNextTask, bind_ok_iff] at h
  obtain ⟨⟨next', rr⟩, hloop, h⟩ := h
  obtain ⟨rfl, rfl⟩ := Prod.mk.inj (Except.ok.inj h)
  exact ⟨rr, hloop, rfl⟩

/-- `get_next_task` returns ready tasks only. -/
theorem nextLoop_ready {start : Nat} : ∀ {n rr : Nat} {t : Nat} {rr' : Nat},
    nextLoop k start n rr = .ok (some t, rr') → (k.tasks t).state = .ready
  | 0, _, _, _, h => by cases h
  | n + 1, rr, t, rr', h => by
      rw [nextLoop] at h
      split at h
      · rename_i hready
        cases h
        exact hready
      split at h
      · cases h
      · exact nextLoop_ready h

/-- The task `t` is the running one. -/
def chooseTask (k : Kernel) (t rr : Nat) : Kernel :=
  { k.modifyTask t fun x => { x with state := .running } with
    current := t
    rr := rr
    ticksRemaining := (k.tasks t).timeSlice
    switching := false }

theorem switchTask_ok {env : CloseEnv} (h : switchTask env fuel k = .ok k') :
    ∃ next rr, nextLoop k k.rr fuel k.rr = .ok (next, rr) ∧
      deliverSignals env fuel (chooseTask k (next.getD idleTask) rr) =
        .ok k' := by
  rw [switchTask, bind_ok_iff] at h
  obtain ⟨⟨next, k₁⟩, hnext, h⟩ := h
  obtain ⟨rr, hloop, rfl⟩ := getNextTask_ok hnext
  refine ⟨next, rr, hloop, ?_⟩
  rw [← h, chooseTask]
  congr 2
  simp [Kernel.currentTask, Kernel.modifyCurrent]

/-! ### Waiting -/

/-- The child a call of `waitpid` by the running task finds. -/
def WaitTarget (fuel : Nat) (k : Kernel) (pid : Int) (options : BitVec 32)
    (child : Nat) : Prop :=
  (0 < pid ∧ getChild k pid fuel k.currentTask.child = .ok (some child)) ∨
    (¬0 < pid ∧
      firstWaitpidTarget k options fuel k.currentTask.child = .ok (some child))

/-- The running task, blocked in `waitpid`. -/
def blockWaiting (k : Kernel) (child wstatus : Option Nat)
    (options : BitVec 32) : Kernel :=
  k.modifyCurrent fun x =>
    { x with state := .blocked, blockReason := .waitpid,
             blockedProcess := child, wstatus := wstatus,
             waitpidFlags := options }

theorem waitpidBlock_ok {child wstatus : Option Nat} {options : BitVec 32} {r : WaitResult}
    (h : waitpidBlock fuel k child wstatus options = .ok (r, k')) :
    (∃ ret, ret ≤ 0 ∧ r = .returned ret none ∧ k' = k) ∨
      (r = .blocked ∧
        runNext fuel (blockWaiting k child wstatus options) = .ok k') := by
  rw [waitpidBlock] at h
  split at h
  · obtain ⟨rfl, rfl⟩ := Prod.mk.inj (Except.ok.inj h)
    exact Or.inl ⟨0, le_refl 0, rfl, rfl⟩
  split at h
  · obtain ⟨rfl, rfl⟩ := Prod.mk.inj (Except.ok.inj h)
    exact Or.inl ⟨eIntr, by decide, rfl, rfl⟩
  · rw [bind_ok_iff] at h
    obtain ⟨k₁, hnext, h⟩ := h
    obtain ⟨rfl, rfl⟩ := Prod.mk.inj (Except.ok.inj h)
    exact Or.inr ⟨rfl, hnext⟩

/-- The ways `waitpid` ends: no child, or none with an event and a return at
once; an event reported; or the running task blocked. -/
theorem waitpid_ok {pid : Int} {wstatus : Option Nat} {options : BitVec 32} {r : WaitResult}
    (h : waitpid fuel k pid wstatus options = .ok (r, k')) :
    (∃ ret, ret ≤ 0 ∧ r = .returned ret none ∧ k' = k) ∨
      (∃ child event, WaitTarget fuel k pid options child ∧
        waitEvent (k.tasks child) options = some event ∧
        r = .returned (k.tasks child).pid (some (child, event)) ∧
        k' = consumeEvent (storeStatus k k.currentTask.cr3 wstatus
          (eventWord (k.tasks child) event)) child event) ∨
      (r = .blocked ∧ ∃ target, (∀ child, target = some child →
          WaitTarget fuel k pid options child ∧
            waitEvent (k.tasks child) options = none) ∧
        runNext fuel (blockWaiting k target wstatus options) = .ok k') := by
  rw [waitpid] at h
  dsimp only at h
  split at h
  · rename_i hpid
    rw [bind_ok_iff] at h
    obtain ⟨found, hfound, h⟩ := h
    split at h
    · obtain ⟨rfl, rfl⟩ := Prod.mk.inj (Except.ok.inj h)
      exact Or.inl ⟨eSrch, by decide, rfl, rfl⟩
    rename_i child
    have htarget : WaitTarget fuel k pid options child :=
      Or.inl ⟨hpid, hfound⟩
    split at h
    · rename_i event hevent
      obtain ⟨rfl, rfl⟩ := Prod.mk.inj (Except.ok.inj h)
      refine Or.inr (Or.inl ⟨child, event, htarget, hevent, ?_, rfl⟩)
      cases wstatus <;> rfl
    · rename_i hevent
      rcases waitpidBlock_ok h with hreturn | ⟨hblocked, hnext⟩
      · exact Or.inl hreturn
      · refine Or.inr (Or.inr ⟨hblocked, _, ?_, hnext⟩)
        rintro _ ⟨⟩
        exact ⟨htarget, hevent⟩
  · rename_i hpid
    rw [bind_ok_iff] at h
    obtain ⟨found, hfound, h⟩ := h
    split at h
    · rename_i child event hevent
      obtain ⟨rfl, rfl⟩ := Prod.mk.inj (Except.ok.inj h)
      cases found with
      | none => cases hevent
      | some child' =>
          rw [Option.bind_some, Option.map_eq_some_iff] at hevent
          obtain ⟨event', hevent', heq⟩ := hevent
          obtain ⟨rfl, rfl⟩ := Prod.mk.inj heq
          refine Or.inr (Or.inl ⟨child', event', Or.inr ⟨hpid, hfound⟩, hevent',
            ?_, rfl⟩)
          cases wstatus <;> rfl
    · rcases waitpidBlock_ok h with hreturn | ⟨hblocked, hnext⟩
      · exact Or.inl hreturn
      · exact Or.inr (Or.inr ⟨hblocked, none, (by rintro _ ⟨⟩), hnext⟩)

theorem linkTask_current (k : Kernel) (new parent : Nat) :
    (linkTask k new parent).current = k.current := rfl

/-- What `fork` writes besides the links: states, frames and the new pid. -/
theorem forkLink_proj {α : Type} (π : Task → α)
    (hπ : ∀ x s p f, π { x with state := s, pid := p, iframe := f } = π x)
    (k : Kernel) (new u : Nat) :
    π ((forkLink k new).tasks u) = π ((linkTask k new k.current).tasks u) := by
  simp only [forkLink, Kernel.modifyCurrent, Kernel.modifyTask_apply]
  split
  · split
    · exact (hπ _ _ _ _).trans (hπ _ _ _ _)
    · exact hπ _ _ _ _
  · split
    · exact hπ _ _ _ _
    · rfl

theorem forkLink_state (k : Kernel) (new u : Nat) :
    ((forkLink k new).tasks u).state =
      if u = k.current then .ready else (k.tasks u).state := by
  have hlink := (LinksOnly.linkTask k new k.current).proj Task.state
    (fun _ _ => rfl) u
  simp only [forkLink, Kernel.modifyCurrent, Kernel.modifyTask_current,
    linkTask_current, Kernel.modifyTask_apply]
  by_cases hu : u = k.current
  · simp only [if_pos hu]
  · simp only [if_neg hu]
    split <;> exact hlink

end GlitchedOS
