/-
What the calls of `fd.c` do to the descriptors of one task.  They keep the counts exact,
and write to no other table; a mount gets no use but by `fd_open`.
-/
import GlitchedOS.Process.Descriptions
import GlitchedOS.Vfs.MountPaths

namespace GlitchedOS

variable {k k' k'' : Kernel} {env : CloseEnv} {t : Nat}

/-- A call that deals with the descriptors of `t`, and opens no file. -/
structure FdCall (t : Nat) (k k' : Kernel) : Prop where
  exact : ∀ {extra}, t ∈ k.allocated → FilesExact k extra → FilesExact k' extra
  others : ∀ u, u ≠ t → (k'.tasks u).fdTable = (k.tasks u).fdTable
  allocated : k'.allocated = k.allocated
  mounts : SameMounts k.vfs k'.vfs
  refcount : ∀ m, (k'.vfs.mounts m).refcount ≤ (k.vfs.mounts m).refcount

namespace FdCall

theorem refl (t : Nat) (k : Kernel) : FdCall t k k :=
  ⟨fun _ h => h, fun _ _ => rfl, rfl, .refl _, fun _ => le_refl _⟩

theorem trans (h : FdCall t k k') (h' : FdCall t k' k'') : FdCall t k k'' where
  exact := fun ht hexact => h'.exact (h.allocated.symm ▸ ht) (h.exact ht hexact)
  others := fun u hu => (h'.others u hu).trans (h.others u hu)
  allocated := h'.allocated.trans h.allocated
  mounts := h.mounts.trans h'.mounts
  refcount := fun m => (h'.refcount m).trans (h.refcount m)

theorem of_congr (htasks : ∀ u, u ≠ t → (k'.tasks u).fdTable = (k.tasks u).fdTable)
    (halloc : k'.allocated = k.allocated)
    (htable : ∀ u, ∀ fd < maxFds, ((k'.tasks u).fdTable fd).fd = ((k.tasks u).fdTable fd).fd)
    (hcount : ∀ c, (k'.files c).refcount = (k.files c).refcount)
    (huse : ∀ c, (k'.files c).use = (k.files c).use) (hpipes : k'.pipes = k.pipes)
    (hlive : k'.livePipes = k.livePipes) (hvfs : k'.vfs = k.vfs) : FdCall t k k' where
  exact := fun _ h => h.congr (held_congr halloc htable) hcount huse hpipes hlive fun m => by
    rw [hvfs]
  others := htasks
  allocated := halloc
  mounts := hvfs ▸ .refl _
  refcount := fun m => by rw [hvfs]

end FdCall

/-! ### Single entries -/

theorem Task.setFd_apply (x : Task) (fd : Nat) (e : Fd) (i : Nat) :
    (x.setFd fd e).fdTable i = if i = fd then e else x.fdTable i :=
  Function.update_apply _ _ _ _

theorem setFd_others (k : Kernel) {t u : Nat} (hu : u ≠ t) (fd : Nat) (e : Fd) :
    ((k.modifyTask t fun x => x.setFd fd e).tasks u).fdTable = (k.tasks u).fdTable := by
  rw [Kernel.modifyTask_ne k _ hu]

theorem dropEntry_frame (henv : env.Closes) (k : Kernel) (t fd d : Nat) :
    (dropEntry env k t fd d).tasks = (k.modifyTask t fun x => x.setFd fd ⟨none, 0#32⟩).tasks ∧
      (dropEntry env k t fd d).allocated = k.allocated ∧
      (dropEntry env k t fd d).current = k.current := by
  rw [dropEntry, closeFileDescription_eq henv]
  obtain ⟨htasks, halloc, -, hcurrent⟩ := retire_frame (dropRef k d)
    ((dropRef k d).files d).purpose
  dsimp only
  split
  · refine ⟨?_, halloc, hcurrent⟩
    rw [Kernel.modifyTask, Kernel.modifyTask]
    simp only [Kernel.modifyFile, htasks]
    rfl
  · exact ⟨rfl, rfl, rfl⟩

theorem retire_mounts (k : Kernel) (u : Use) : SameMounts k.vfs (retire k u).vfs ∧
    ∀ m, ((retire k u).vfs.mounts m).refcount ≤ (k.vfs.mounts m).refcount := by
  have hpipe : ∀ (k : Kernel) p, (freePipe k p).vfs = k.vfs := by
    intro k p
    rw [freePipe]
    split <;> rfl
  have hsame : (retire k u).vfs = k.vfs → SameMounts k.vfs (retire k u).vfs ∧
      ∀ m, ((retire k u).vfs.mounts m).refcount ≤ (k.vfs.mounts m).refcount := by
    intro heq
    rw [heq]
    exact ⟨.refl _, fun _ => le_refl _⟩
  cases u with
  | mount n =>
      refine ⟨.release k.vfs n, fun m => ?_⟩
      show ((k.vfs.release n).mounts m).refcount ≤ _
      rw [MountTable.release, MountTable.modify_mounts]
      split
      · rename_i heq
        rw [heq]
        dsimp only
        omega
      · exact le_refl _
  | reader p => exact hsame (hpipe _ p)
  | writer p => exact hsame (hpipe _ p)
  | socket => exact hsame rfl

theorem FdCall.dropEntry (henv : env.Closes) {fd d : Nat} (hfd : fd < maxFds)
    (hd : ((k.tasks t).fdTable fd).fd = some d) :
    FdCall t k (GlitchedOS.dropEntry env k t fd d) := by
  obtain ⟨htasks, halloc, -⟩ := dropEntry_frame henv k t fd d
  have hmounts : SameMounts k.vfs (GlitchedOS.dropEntry env k t fd d).vfs ∧
      ∀ m, ((GlitchedOS.dropEntry env k t fd d).vfs.mounts m).refcount ≤
        (k.vfs.mounts m).refcount := by
    rw [GlitchedOS.dropEntry, closeFileDescription_eq henv]
    dsimp only
    split
    · exact retire_mounts (dropRef k d) _
    · exact ⟨.refl _, fun _ => le_refl _⟩
  refine ⟨fun ht h => h.dropEntry henv ht hfd hd, fun u hu => ?_, halloc, hmounts.1, hmounts.2⟩
  rw [htasks]
  exact setFd_others k hu fd _

theorem FdCall.shareEntry {fd from' d : Nat} (flags : BitVec 32) (hfd : fd < maxFds)
    (hfree : ((k.tasks t).fdTable fd).fd = none) (hfrom : from' < maxFds)
    (hd : ((k.tasks t).fdTable from').fd = some d) :
    FdCall t k (GlitchedOS.shareEntry k t fd d flags) where
  exact := fun ht h => h.shareEntry flags ht hfd hfree (h.refs.pos ht hfrom hd)
  others := fun _ hu => setFd_others k hu fd _
  allocated := rfl
  mounts := .refl _
  refcount := fun _ => le_refl _

theorem FdCall.openSocket {fd i : Nat} {f : FileDescription} (flags : BitVec 32)
    (hfd : fd < maxFds) (hslot : ((k.tasks t).fdTable fd).fd = none) (hi : i < maxFiles)
    (hfree : (k.files i).refcount = 0) (hf : f.refcount = 1) (htype : f.purpose = .socket) :
    FdCall t k (openEntry k t fd i f flags) where
  exact := fun ht h => by
    have husers : ∀ v, v ≠ .socket → users (openEntry k t fd i f flags) v = users k v := by
      intro v hv
      rw [users_openEntry k flags hi hfree hf, htype, if_neg (Ne.symm hv), add_zero]
    refine ⟨h.refs.openEntry flags ht hfd hslot hi hfree hf, ?_, fun m => ?_⟩
    · exact h.pipes.congr rfl rfl (fun p => husers _ (by simp)) fun p => husers _ (by simp)
    · rw [husers _ (by simp)]
      exact h.mounts m
  others := fun _ hu => setFd_others (k.modifyFile i fun _ => f) hu fd _
  allocated := rfl
  mounts := .refl _
  refcount := fun _ => le_refl _

/-! ### The two ends of a pipe -/

/-- The descriptor `fd` of `t` becomes an end of the pipe `p`. -/
def openEnd (k : Kernel) (t fd i p : Nat) (flags : BitVec 32) : Kernel :=
  openEntry k t fd i
    { k.files i with pipe := p, flags := flags, refcount := 1, type := .pipe } 0#32

theorem users_openEnd (k : Kernel) {t fd i p : Nat} (flags : BitVec 32) (hi : i < maxFiles)
    (hfree : (k.files i).refcount = 0) (v : Use) :
    users (openEnd k t fd i p flags) v = users k v +
      if (if flags &&& oAccess = oRdonly then Use.reader p else .writer p) = v then 1 else 0 :=
  users_openEntry k 0#32 hi hfree rfl v

/-- What `pipe` does when it finds two slots and two descriptions. -/
def openPipe (k : Kernel) (t fd₀ fd₁ i₀ i₁ p : Nat) : Kernel :=
  openEnd (openEnd (createPipe k p) t fd₀ i₀ p oRdonly) t fd₁ i₁ p oWronly

theorem FdCall.openPipe {fd₀ fd₁ i₀ i₁ p : Nat} (hp : p ∉ k.livePipes)
    (hfd₀ : fd₀ < maxFds) (hslot₀ : ((k.tasks t).fdTable fd₀).fd = none)
    (hfd₁ : fd₁ < maxFds) (hslot₁ : ((k.tasks t).fdTable fd₁).fd = none) (hfd : fd₁ ≠ fd₀)
    (hi₀ : i₀ < maxFiles) (hfree₀ : (k.files i₀).refcount = 0)
    (hi₁ : i₁ < maxFiles) (hfree₁ : (k.files i₁).refcount = 0) (hi : i₁ ≠ i₀) :
    FdCall t k (GlitchedOS.openPipe k t fd₀ fd₁ i₀ i₁ p) := by
  have hfree : ((openEnd (createPipe k p) t fd₀ i₀ p oRdonly).files i₁).refcount = 0 := by
    show (((createPipe k p).modifyFile i₀ fun _ => _).files i₁).refcount = 0
    rw [Kernel.modifyFile_apply, if_neg hi]
    exact hfree₁
  have husers : ∀ v, users (GlitchedOS.openPipe k t fd₀ fd₁ i₀ i₁ p) v = users k v +
      (if Use.reader p = v then 1 else 0) + if Use.writer p = v then 1 else 0 := by
    intro v
    rw [GlitchedOS.openPipe, users_openEnd _ oWronly hi₁ hfree,
      users_openEnd (createPipe k p) oRdonly hi₀ hfree₀]
    rfl
  refine ⟨fun ht h => ⟨?_, ?_, fun m => ?_⟩, fun u hu => ?_, rfl, .refl _, fun _ => le_refl _⟩
  · have hmade : RefsExact (createPipe k p) := ⟨h.refs.counts, h.refs.bound⟩
    have hfirst : RefsExact (openEnd (createPipe k p) t fd₀ i₀ p oRdonly) :=
      hmade.openEntry 0#32 ht hfd₀ hslot₀ hi₀ hfree₀ rfl
    refine hfirst.openEntry 0#32 ht hfd₁ ?_ hi₁ hfree rfl
    show ((((createPipe k p).modifyTask t fun x => x.setFd fd₀ _).tasks t).fdTable fd₁).fd = none
    rw [Kernel.modifyTask_self, Task.setFd_apply, if_neg hfd]
    exact hslot₁
  · have hnone : users k (.reader p) = 0 ∧ users k (.writer p) = 0 := by
      have hdead := mt (h.pipes.live p).mpr hp
      omega
    have hcount : ∀ q, (GlitchedOS.openPipe k t fd₀ fd₁ i₀ i₁ p).pipes q =
        if q = p then ⟨1, 1⟩ else k.pipes q := fun q => Function.update_apply _ _ _ _
    have hlive : (GlitchedOS.openPipe k t fd₀ fd₁ i₀ i₁ p).livePipes = insert p k.livePipes := rfl
    refine ⟨fun q hq => ?_, fun q hq => ?_, fun q => ?_⟩
    · rw [hlive, Finset.mem_insert] at hq
      rw [hcount, husers]
      by_cases hqp : q = p
      · subst hqp
        simp [hnone]
      · simp only [hqp, if_false, Use.reader.injEq, Ne.symm hqp, reduceCtorEq, add_zero]
        exact h.pipes.readers q (hq.resolve_left hqp)
    · rw [hlive, Finset.mem_insert] at hq
      rw [hcount, husers]
      by_cases hqp : q = p
      · subst hqp
        simp [hnone]
      · simp only [hqp, if_false, Use.writer.injEq, Ne.symm hqp, reduceCtorEq, add_zero]
        exact h.pipes.writers q (hq.resolve_left hqp)
    · rw [hlive, Finset.mem_insert, husers, husers]
      by_cases hqp : q = p
      · subst hqp
        simp
      · have hold := h.pipes.live q
        simp only [hqp, false_or, Use.reader.injEq, Use.writer.injEq, Ne.symm hqp, if_false,
          reduceCtorEq, add_zero]
        exact hold
  · rw [husers]
    simp only [reduceCtorEq, if_false, add_zero]
    exact h.mounts m
  · show ((((createPipe k p).modifyTask t fun x => x.setFd fd₀ _).modifyTask t fun x =>
      x.setFd fd₁ _).tasks u).fdTable = _
    rw [setFd_others _ hu, setFd_others _ hu]
    rfl

/-! ### The calls of `fd.c` -/

theorem lookupFd_some {fd : Int} {d : Nat} (h : lookupFd k fd = some d) :
    fd.toNat < maxFds ∧ ((k.tasks k.current).fdTable fd.toNat).fd = some d := by
  rw [lookupFd] at h
  split at h
  · rename_i hrange
    exact ⟨by omega, h⟩
  · cases h

theorem fdClose_eq (henv : env.Closes) {fd : Int} {d : Nat} (h : lookupFd k fd = some d) :
    fdClose env k fd = (0, dropEntry env k k.current fd.toNat d) := by
  rw [fdClose, h, dropEntry]
  dsimp only
  split
  · rw [closeFileDescription_eq henv]
    dsimp only
    rw [if_neg (by decide), Kernel.modifyCurrent]
    have hcurrent := (retire_frame (dropRef k d) ((dropRef k d).files d).purpose).2.2.2
    exact congrArg (fun t => ((0 : Int), Kernel.modifyTask _ t fun x =>
      x.setFd fd.toNat ⟨none, 0#32⟩)) hcurrent
  · rfl

theorem FdCall.fdClose (henv : env.Closes) (k : Kernel) (fd : Int) :
    FdCall k.current k (GlitchedOS.fdClose env k fd).2 := by
  cases hd : lookupFd k fd with
  | none =>
      rw [GlitchedOS.fdClose, hd]
      exact .refl _ k
  | some d =>
      obtain ⟨hfd, hentry⟩ := lookupFd_some hd
      rw [fdClose_eq henv hd]
      exact .dropEntry henv hfd hentry

/-- The entry is free after the call, and no other one changes. -/
theorem fdClose_entry (henv : env.Closes) (k : Kernel) {fd : Int} (hfd : 0 ≤ fd ∧ fd < maxFds)
    (i : Nat) : (((fdClose env k fd).2.tasks k.current).fdTable i).fd =
      if i = fd.toNat then none else ((k.tasks k.current).fdTable i).fd := by
  cases hd : lookupFd k fd with
  | none =>
      have hsame : (fdClose env k fd).2 = k := by rw [fdClose, hd]
      rw [lookupFd, if_pos hfd] at hd
      rw [hsame]
      split
      · rename_i heq
        rw [heq]
        exact hd
      · rfl
  | some d =>
      rw [fdClose_eq henv hd]
      rw [(dropEntry_frame henv k k.current fd.toNat d).1, Kernel.modifyTask_self,
        Task.setFd_apply]
      split <;> rfl

theorem FdCall.dup (k : Kernel) (fd minfd : Int) (flags : BitVec 32) :
    FdCall k.current k (GlitchedOS.dup k fd minfd flags).2 := by
  rw [GlitchedOS.dup]
  split
  · exact .refl _ k
  rename_i d hd
  obtain ⟨hfrom, hentry⟩ := lookupFd_some hd
  split
  · exact .refl _ k
  split
  · exact .refl _ k
  rename_i i hi
  obtain ⟨hle, hlt, hfree⟩ := freeSlot_spec hi
  exact .shareEntry flags (by omega) hfree hfrom hentry

theorem FdCall.fcntl (k : Kernel) (fd : Int) (cmd : Nat) (arg : Int) :
    FdCall k.current k (GlitchedOS.fcntl k fd cmd arg).2 := by
  rw [GlitchedOS.fcntl]
  split
  · exact .refl _ k
  rename_i d hd
  obtain ⟨hfd, hentry⟩ := lookupFd_some hd
  dsimp only
  split
  · exact .refl _ k
  · refine .of_congr (fun u hu => setFd_others k hu _ _) rfl (fun u i _ => ?_) (fun _ => rfl)
      (fun _ => rfl) rfl rfl rfl
    rw [Kernel.modifyCurrent, Kernel.modifyTask_apply]
    split
    · rename_i heq
      rw [Task.setFd_apply, heq]
      split
      · rename_i hi
        rw [hi, hentry]
      · rfl
    · rfl
  · exact .refl _ k
  · -- `F_SETFL` leaves the access mode, by which the end of a pipe is told.
    have hmode : ∀ old new : BitVec 32,
        ((old &&& ~~~fcntlMutable) ||| (new &&& fcntlMutable)) &&& oAccess = old &&& oAccess := by
      intro old new
      have hkept : ~~~fcntlMutable &&& oAccess = oAccess := by decide
      have hapart : fcntlMutable &&& oAccess = 0#32 := by decide
      rw [BitVec.and_or_distrib_right, BitVec.and_assoc, BitVec.and_assoc, hkept, hapart,
        BitVec.and_zero, BitVec.or_zero]
    refine .of_congr (fun _ _ => rfl) rfl (fun _ _ _ => rfl) (fun c => ?_) (fun c => ?_) rfl rfl rfl
    · rw [Kernel.modifyFile_apply]
      split
      · rename_i hc
        rw [hc]
      · rfl
    · rw [Kernel.modifyFile_apply]
      split
      · rename_i hc
        rw [hc, FileDescription.use, FileDescription.use, FileDescription.purpose,
          FileDescription.purpose]
        dsimp only
        rw [hmode]
      · rfl
  · exact .dup k fd arg _
  · exact .dup k fd arg _
  · exact .refl _ k

theorem FdCall.dup2 (henv : env.Closes) (k : Kernel) (fd newFd : Int) :
    FdCall k.current k (GlitchedOS.dup2 env k fd newFd).2 := by
  rw [GlitchedOS.dup2]
  split
  · exact .refl _ k
  rename_i d hd
  obtain ⟨hfrom, hentry⟩ := lookupFd_some hd
  split
  · exact .refl _ k
  split
  · exact .refl _ k
  rename_i hrange hne
  have hclosed := FdCall.fdClose henv k newFd
  have hcurrent := (FilesOnly.fdClose env k newFd).current
  have hinside : 0 ≤ newFd ∧ newFd < maxFds := by omega
  have hentries := fdClose_entry henv k hinside
  have hother : fd.toNat ≠ newFd.toNat := by
    rw [lookupFd] at hd
    split at hd
    · omega
    · cases hd
  refine hclosed.trans ?_
  dsimp only
  rw [Kernel.modifyCurrent, hcurrent]
  refine .shareEntry 0#32 (by omega) ?_ hfrom ?_
  · rw [hentries, if_pos rfl]
  · rw [hentries, if_neg hother]
    exact hentry

theorem FdCall.pipe (k : Kernel) {p : Nat} (hp : p ∉ k.livePipes) :
    FdCall k.current k (GlitchedOS.pipe k p).2 := by
  rw [GlitchedOS.pipe]
  split
  · exact .refl _ k
  rename_i fd₀ hfd₀
  split
  · exact .refl _ k
  rename_i fd₁ hfd₁
  split
  · exact .refl _ k
  rename_i i₀ hi₀
  split
  · exact .refl _ k
  rename_i i₁ hi₁
  obtain ⟨-, hlt₀, hslot₀⟩ := freeSlot_spec hfd₀
  obtain ⟨hle₁, hlt₁, hslot₁⟩ := freeSlot_spec hfd₁
  obtain ⟨-, hilt₀, hfree₀⟩ := freeDescription_spec hi₀
  obtain ⟨hile₁, hilt₁, hfree₁⟩ := freeDescription_spec hi₁
  exact FdCall.openPipe hp (by omega) hslot₀ (by omega) hslot₁ (by omega) (by omega) hfree₀
    (by omega) hfree₁ (by omega)

theorem FdCall.fdSocket (k : Kernel) (res : Int) (sock : Nat) :
    FdCall k.current k (GlitchedOS.fdSocket k res sock).2 := by
  rw [GlitchedOS.fdSocket]
  split
  · exact .refl _ k
  rename_i slot hslot
  split
  · exact .refl _ k
  rename_i i hi
  split
  · exact .refl _ k
  obtain ⟨-, hlt, hfree⟩ := freeSlot_spec hslot
  obtain ⟨-, hilt, hunused⟩ := freeDescription_spec hi
  exact .openSocket (f := { k.files i with
    socket := sock, type := .socket, offset := 0, flags := 0#32, refcount := 1 }) 0#32
    (by omega) hfree (by omega) hunused rfl rfl

/-! ### Loops over a table -/

/-- `release_process_fds` closes all descriptors of the running task. -/
theorem FdCall.releaseProcessFds (henv : env.Closes) (k : Kernel) :
    FdCall k.current k (GlitchedOS.releaseProcessFds env k) ∧ ∀ fd < maxFds,
      (((GlitchedOS.releaseProcessFds env k).tasks k.current).fdTable fd).fd = none := by
  have hrounds : FdCall k.current k (GlitchedOS.releaseProcessFds env k) ∧
      (GlitchedOS.releaseProcessFds env k).current = k.current ∧ ∀ fd < maxFds,
        (((GlitchedOS.releaseProcessFds env k).tasks k.current).fdTable fd).fd = none := by
    rw [GlitchedOS.releaseProcessFds]
    refine loopPure_induct (P := fun n k' => FdCall k.current k k' ∧ k'.current = k.current ∧
      ∀ fd < n, ((k'.tasks k.current).fdTable fd).fd = none)
      ⟨.refl _ _, rfl, fun fd hfd => absurd hfd (Nat.not_lt_zero fd)⟩ ?_
    rintro n hn k₂ ⟨hcall, hcurrent, hclosed⟩
    split
    · rename_i hfree
      rw [Kernel.currentTask, hcurrent] at hfree
      refine ⟨hcall, hcurrent, fun fd hfd => ?_⟩
      rcases Nat.lt_succ_iff_lt_or_eq.mp hfd with hfd | rfl
      · exact hclosed fd hfd
      · exact hfree
    · have hone := FdCall.fdClose henv k₂ n
      have hinside : 0 ≤ (n : Int) ∧ (n : Int) < maxFds := by omega
      have hentries := fdClose_entry henv k₂ hinside
      rw [hcurrent] at hone hentries
      refine ⟨hcall.trans hone, (FilesOnly.fdClose env k₂ n).current.trans hcurrent,
        fun fd hfd => ?_⟩
      rw [hentries, Int.toNat_natCast]
      rcases Nat.lt_succ_iff_lt_or_eq.mp hfd with hfd | rfl
      · rw [hclosed fd hfd, ite_self]
      · rw [if_pos rfl]
  exact ⟨hrounds.1, hrounds.2.2⟩

/-- The `O_CLOEXEC` loop closes descriptors of the new task. -/
theorem FdCall.closeOnExec (henv : env.Closes) (new : Nat) (k : Kernel) :
    FdCall new k (GlitchedOS.closeOnExec env new k) := by
  rw [GlitchedOS.closeOnExec]
  refine loopPure_induct (P := fun _ k' => FdCall new k k') (.refl new k) fun fd hfd k₂ hk => ?_
  refine hk.trans ?_
  dsimp only
  split
  · exact .refl _ k₂
  · rename_i d hd
    split
    · exact .refl _ k₂
    · exact .dropEntry henv hfd hd

/-- The counts of all descriptions go up by what the table holds. -/
theorem addRefs_eq (table : Nat → Fd) (k : Kernel) :
    addRefs table k = { k with files := fun c => { k.files c with
      refcount := (k.files c).refcount + tally maxFds (fun fd => (table fd).fd) (some c) } } := by
  rw [addRefs]
  refine loopPure_induct (P := fun n k' => k' = { k with files := fun c => { k.files c with
    refcount := (k.files c).refcount + tally n (fun fd => (table fd).fd) (some c) } }) ?_ ?_
  · refine congrArg (fun files => { k with files := files }) (funext fun c => ?_)
    rw [tally_zero, Nat.cast_zero, add_zero]
  · rintro n - k' rfl
    split
    · rename_i hfree
      refine congrArg (fun files => { k with files := files }) (funext fun c => ?_)
      rw [tally_succ, hfree]
      simp
    · rename_i d hd
      refine congrArg (fun files => { k with files := files }) (funext fun c => ?_)
      rw [tally_succ, hd, Function.update_apply]
      by_cases hc : c = d
      · subst hc
        simp [add_assoc]
      · simp [hc, Ne.symm hc]

/-! ### A copy of a table -/

theorem held_allocTask {new : Nat} (hnew : new ∉ k.allocated) (phys : PhysMem) (x : Task)
    (c : Nat) : held (allocTask k new phys x) c = held k c + x.holds c := by
  have hsum : held (allocTask k new phys x) c =
      ∑ u ∈ insert new k.allocated, ((allocTask k new phys x).tasks u).holds c := rfl
  rw [hsum, Finset.sum_insert hnew, allocTask_new, add_comm, held]
  congr 1
  refine Finset.sum_congr rfl fun u hu => ?_
  rw [allocTask_ne k phys x fun heq : u = new => hnew (heq ▸ hu)]

theorem RefsExact.holds_le (h : RefsExact k) {u : Nat} (hu : u ∈ k.allocated) (c : Nat) :
    ((k.tasks u).holds c : Int) ≤ (k.files c).refcount := by
  rw [h.counts]
  exact_mod_cast Finset.single_le_sum (f := fun t => (k.tasks t).holds c)
    (fun _ _ => Nat.zero_le _) hu

/-- A new task has the descriptors of the task `u`, and they are counted. -/
theorem FilesExact.copyTable {extra : Nat → Nat} (h : FilesExact k extra) {new u : Nat}
    {phys : PhysMem} {x : Task} (hnew : new ∉ k.allocated) (hu : u ∈ k.allocated)
    (hx : x.fdTable = (k.tasks u).fdTable) :
    FilesExact (addRefs x.fdTable (allocTask k new phys x)) extra := by
  have hholds : ∀ c, x.holds c = (k.tasks u).holds c := Task.holds_congr fun fd _ => by rw [hx]
  rw [addRefs_eq]
  have hcounts : ∀ c, (k.files c).refcount + (x.holds c : Int) =
      held (allocTask k new phys x) c := by
    intro c
    rw [held_allocTask hnew, h.refs.counts]
    exact (Nat.cast_add _ _).symm
  have huse : ∀ c, ({ k.files c with refcount := (k.files c).refcount + (x.holds c : Int) } :
      FileDescription).use = (k.files c).use := by
    intro c
    have hle := h.refs.holds_le hu c
    have hpos : 0 ≤ (k.files c).refcount := by
      rw [h.refs.counts]
      exact Int.natCast_nonneg _
    rw [hholds]
    by_cases hused : (k.files c).refcount = 0
    · rw [FileDescription.use_of_zero hused]
      exact FileDescription.use_of_zero (by dsimp only; omega)
    · refine FileDescription.use_congr rfl (by omega) ?_
      dsimp only
      omega
  have husers : ∀ v, users { allocTask k new phys x with files := fun c => { k.files c with
      refcount := (k.files c).refcount + (x.holds c : Int) } } v = users k v :=
    users_congr huse
  refine ⟨⟨hcounts, fun c hc => ?_⟩, ?_, fun m => ?_⟩
  · have hfree := h.refs.bound c hc
    have hle := h.refs.holds_le hu c
    show (k.files c).refcount + (x.holds c : Int) = 0
    rw [hholds]
    omega
  · exact h.pipes.congr rfl rfl (fun p => husers _) fun p => husers _
  · exact (h.mounts m).trans
      (congrArg (fun n : Nat => (n : Int) + extra m) (husers (.mount m)).symm)

/-! ### `fd_open` -/

/-- `fd_open` opens the file, and then fails to truncate it. -/
def TruncationFails (k : Kernel) (env : OpenEnv) (flags : BitVec 32) : Prop :=
  0 ≤ env.fsOpen ∧ (∃ type, checkOpen env flags = .ok type ∧ truncateFails env flags type = true) ∧
    (∃ slot, freeSlot k.currentTask maxFds 0 = some slot) ∧
    (∃ i, freeDescription k.files maxFiles 0 = some i) ∧
    ∃ fuel file, findMountpoint env.walk fuel k.vfs env.path = some (.ok file)

theorem FilesExact.acquire {extra : Nat → Nat} (h : FilesExact k extra) (m : Nat) :
    FilesExact { k with vfs := k.vfs.acquire m } (Function.update extra m (extra m + 1)) := by
  refine ⟨⟨h.refs.counts, h.refs.bound⟩, h.pipes.congr rfl rfl (fun _ => rfl) fun _ => rfl,
    fun n => ?_⟩
  have hold := h.mounts n
  rw [Function.update_apply]
  show ((k.vfs.acquire m).mounts n).refcount = users k (.mount n) + _
  rw [MountTable.acquire, MountTable.modify_mounts]
  split
  · rename_i heq
    subst heq
    dsimp only
    push_cast
    omega
  · exact hold

/-- A free description becomes an open file of the mount `m`. -/
theorem FilesExact.openFile {extra : Nat → Nat} (h : FilesExact k extra) {fd i m : Nat}
    {f : FileDescription} (flags : BitVec 32) (ht : t ∈ k.allocated) (hfd : fd < maxFds)
    (hslot : ((k.tasks t).fdTable fd).fd = none) (hi : i < maxFiles)
    (hfree : (k.files i).refcount = 0) (hf : f.refcount = 1) (hm : f.purpose = .mount m) :
    FilesExact { openEntry k t fd i f flags with vfs := k.vfs.acquire m } extra := by
  have husers : ∀ v, users (openEntry k t fd i f flags) v =
      users k v + if Use.mount m = v then 1 else 0 := by
    intro v
    rw [users_openEntry k flags hi hfree hf, hm]
  have hrefs := h.refs.openEntry flags ht hfd hslot hi hfree hf
  refine ⟨⟨hrefs.counts, hrefs.bound⟩, h.pipes.congr rfl rfl (fun p => ?_) fun p => ?_,
    fun n => ?_⟩
  · exact (husers _).trans (by simp)
  · exact (husers _).trans (by simp)
  · have hold := h.mounts n
    show ((k.vfs.acquire m).mounts n).refcount =
      users (openEntry k t fd i f flags) (.mount n) + extra n
    rw [husers, MountTable.acquire, MountTable.modify_mounts]
    by_cases hn : n = m
    · subst hn
      rw [if_pos rfl, if_pos rfl]
      dsimp only
      push_cast
      omega
    · rw [if_neg hn, if_neg fun heq => hn (Use.mount.inj heq).symm]
      simpa using hold

/-- A description that `fd_open` makes stand for `file`. -/
def FileDescription.opened (f : FileDescription) (file : FileHandle) (type : Nat)
    (flags : BitVec 32) : FileDescription :=
  { f with fileHandle := file, type := if type = dtDir then .dir else .file, offset := 0,
           flags := flags &&& ~~~oCloexec, refcount := 1 }

theorem FileDescription.opened_purpose (f : FileDescription) (file : FileHandle) (type : Nat)
    (flags : BitVec 32) : (f.opened file type flags).purpose = .mount file.mountpoint := by
  rw [FileDescription.purpose, FileDescription.opened]
  dsimp only
  split_ifs <;> rfl

/-- What `fd_open` does: a mount may be left with a use that no description has, when the
file is open and cannot be truncated. -/
structure FdOpened (k : Kernel) (leaks : Prop) (extra : Nat → Nat) (k' : Kernel)
    (extra' : Nat → Nat) : Prop where
  exact : FilesExact k' extra'
  kept : ¬leaks → extra' = extra
  others : ∀ u, u ≠ k.current → (k'.tasks u).fdTable = (k.tasks u).fdTable
  mounts : SameMounts k.vfs k'.vfs
  reached : RootedTree k.vfs → ∀ m, 0 < users k' (.mount m) →
    0 < users k (.mount m) ∨ Reached k.vfs m

theorem FilesExact.fdOpen {extra : Nat → Nat} (h : FilesExact k extra) {env : OpenEnv}
    {fuel : Nat} {flags : BitVec 32} {r : Int × Kernel} (ht : k.current ∈ k.allocated)
    (hrun : fdOpen env fuel k flags = .ok r) :
    ∃ extra', FdOpened k (TruncationFails k env flags) extra r.2 extra' := by
  have hsame : r.2 = k → ∃ extra', FdOpened k (TruncationFails k env flags) extra r.2 extra' := by
    rintro heq
    rw [heq]
    exact ⟨extra, h, fun _ => rfl, fun _ _ => rfl, .refl _, fun _ _ hm => .inl hm⟩
  rcases fdOpen_cases hrun with heq | ⟨type, slot, i, hcheck, hslot, hi, file, hfind, hways⟩
  · exact hsame heq
  obtain ⟨-, hlt, hentry⟩ := freeSlot_spec hslot
  obtain ⟨-, hilt, hfree⟩ := freeDescription_spec hi
  have hspare : ∀ file, FilesExact (k.modifyFile i fun f => { f with fileHandle := file }) extra :=
    fun file => h.modifyFree hfree hfree
  have husers : ∀ file v, users (k.modifyFile i fun f => { f with fileHandle := file }) v =
      users k v := by
    intro file v
    refine users_congr (fun c => ?_) v
    rw [Kernel.modifyFile_apply]
    split
    · rename_i hc
      rw [hc, FileDescription.use_of_zero hfree]
      exact FileDescription.use_of_zero hfree
    · rfl
  rcases hways with ⟨-, heq⟩ | ⟨hopen, htrunc, heq⟩ | ⟨-, heq⟩
  · rw [heq]
    refine ⟨extra, hspare file, fun _ => rfl, fun _ _ => rfl, .refl _, fun _ m hm => .inl ?_⟩
    rwa [husers] at hm
  · rw [heq]
    refine ⟨_, (hspare ⟨0, 0⟩).acquire file.mountpoint, fun hleaks => ?_, fun _ _ => rfl,
      .acquire _ _, fun _ m hm => .inl ?_⟩
    · exact absurd ⟨hopen, ⟨type, hcheck, htrunc⟩, ⟨slot, hslot⟩, ⟨i, hi⟩, fuel, file, hfind⟩ hleaks
    · rw [← husers ⟨0, 0⟩]
      exact hm
  · rw [heq]
    have hpurpose := (k.files i).opened_purpose file type flags
    refine ⟨extra, h.openFile (flags &&& oCloexec) ht (by omega) hentry (by omega) hfree rfl
      hpurpose, fun _ => rfl, fun u hu => setFd_others (k.modifyFile i fun _ => _) hu slot _,
      .acquire _ _, fun hrooted m hm => ?_⟩
    have hone : users (openEntry k k.current slot i ((k.files i).opened file type flags)
        (flags &&& oCloexec)) (.mount m) = users k (.mount m) + _ :=
      users_openEntry k (flags &&& oCloexec) (by omega) hfree rfl (.mount m)
    rw [hpurpose] at hone
    by_cases hmf : file.mountpoint = m
    · exact .inr (hmf ▸ hrooted.findMountpoint hfind)
    · rw [if_neg fun heq => hmf (Use.mount.inj heq), add_zero] at hone
      exact .inl (hone ▸ hm)

end GlitchedOS
