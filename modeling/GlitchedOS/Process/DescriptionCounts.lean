/-
The counts of descriptions, pipes and mounts in every run in which closes succeed.  A use
of a mount that no description has is left by `fd_open` alone, where it fails to truncate
the file it has opened.
-/
import GlitchedOS.Process.DescriptionRuns

namespace GlitchedOS

variable {k k' : Kernel} {ring : List Nat} {extra : Nat → Nat} {op : Op}

namespace Accounted

theorem enterSyscall (h : Accounted k extra) (number : Int) :
    Accounted (GlitchedOS.enterSyscall k number) extra :=
  h.tablesKept (.enterSyscall k number)

theorem fdOpen (h : Accounted k extra) {env : OpenEnv} {fuel : Nat} {flags : BitVec 32}
    {r : Int × Kernel} (ht : k.current ∈ k.allocated) (halive : ¬k.currentTask.Dead)
    (hrun : GlitchedOS.fdOpen env fuel k flags = .ok r) :
    ∃ extra', Accounted r.2 extra' ∧ (¬TruncationFails k env flags → extra' = extra) := by
  obtain ⟨extra', hopened⟩ := h.exact.fdOpen ht hrun
  have hfiles := FilesOnly.fdOpen hrun
  have hstate := hfiles.proj Task.state fun _ _ => rfl
  refine ⟨extra', ⟨hopened.exact, fun t ht hd => ?_, hopened.mounts.rooted h.rooted,
    fun m hm => hopened.mounts.reached ?_⟩, hopened.kept⟩
  · rw [Task.Dead, hstate] at hd
    have hother : t ≠ k.current := by
      rintro rfl
      exact halive hd
    intro fd hfd
    rw [hopened.others t hother]
    exact h.closed t ((Quiet.of_attrsOnly (.of_filesOnly hfiles)).allocated ▸ ht) hd fd hfd
  · exact (hopened.reached h.rooted m hm).elim (h.reached m) id

/-- Mounting and unmounting keep what is in use. -/
theorem setVfs (h : Accounted k extra) {vfs : MountTable} (hkept : MountsKept k.vfs vfs) :
    ∃ extra', Accounted { k with vfs := vfs } extra' ∧ ∀ m, extra' m ≤ extra m := by
  have hunused : ∀ m, m ∉ k.vfs.live → users k (.mount m) = 0 := by
    intro m hm
    by_contra hused
    obtain ⟨above, hpath⟩ := h.reached m (Nat.pos_of_ne_zero hused)
    exact hm (h.rooted.mem_live hpath)
  have hcounts : ∀ m, ∃ n ≤ extra m, (vfs.mounts m).refcount = users k (.mount m) + n := by
    intro m
    have hold := h.exact.mounts m
    by_cases hm : m ∈ k.vfs.live
    · exact ⟨extra m, le_refl _, (hkept.refcount m hm).trans hold⟩
    · rcases hkept.fresh m hm with hsame | hzero
      · exact ⟨extra m, le_refl _, hsame.trans hold⟩
      · refine ⟨0, Nat.zero_le _, ?_⟩
        rw [hzero, hunused m hm]
        rfl
  choose extra' hle hexact using hcounts
  refine ⟨extra', ⟨⟨⟨h.exact.refs.counts, h.exact.refs.bound⟩, h.exact.pipes.congr rfl rfl
    (fun _ => rfl) fun _ => rfl, hexact⟩, h.closed, hkept.rooted, fun m hm => ?_⟩, hle⟩
  refine hkept.reached m (h.reached m hm) ?_
  have hold := h.exact.mounts m
  have hused : 0 < users k (.mount m) := hm
  omega

end Accounted

def Op.Closes : Op → Prop
  | .switchTask env | .deliverSignals env | .exit env _ | .fdClose env _ | .dup2 env _ _ =>
      env.Closes
  | .spawn env _ _ _ | .execve env _ _ _ => env.closeEnv.Closes
  | _ => True

/-- The operation makes no kernel worker, and ends none. -/
def Op.ofUsers : Op → Bool
  | .createKworker _ _ | .kworkerExit => false
  | _ => true

/-- A step of user tasks and of the scheduler in which closes succeed. -/
def ClosingStep (k : Kernel) (op : Op) (k' : Kernel) : Prop :=
  op.ofUsers = true ∧ op.Closes ∧ SparingStep k op k'

/-- `fd_open` does not open a file that it fails to truncate. -/
def Op.Truncates (k : Kernel) : Op → Prop
  | .fdOpen env flags => ¬TruncationFails k env flags
  | _ => True

theorem sysMounts_vfs {r : Option (Int × MountTable)} (h : sysMounts k r = .ok k') :
    ∃ ret vfs, r = some (ret, vfs) ∧ k' = leaveSyscall (ret, { k with vfs := vfs }) := by
  cases r with
  | none => cases h
  | some r => exact ⟨r.1, r.2, rfl, (Except.ok.inj h).symm⟩

theorem step_accounted (h : Accounted k extra) (ho : Orderly k ring)
    (hstep : ClosingStep k op k') :
    ∃ extra', Accounted k' extra' ∧ (op.Truncates k → ∀ m, extra' m ≤ extra m) := by
  obtain ⟨husers, hcloses, hspares, hstep⟩ := hstep
  have hsame : Accounted k' extra →
      ∃ extra', Accounted k' extra' ∧ (op.Truncates k → ∀ m, extra' m ≤ extra m) :=
    fun hdone => ⟨extra, hdone, fun _ _ => le_refl _⟩
  by_cases hkeeps : op.keepsTables = true
  · exact hsame (h.tablesKept (step_tablesKept ho.lively hspares hkeeps hstep))
  have hmem : k.current ∈ k.allocated := ho.tree.order.current.elim
    (fun hin => (ho.tree.order.allocated _ hin).1) fun hidle => hidle ▸ ho.lively.apart.allocated
  obtain ⟨henabled, fuel, reports, hrun⟩ := hstep
  have halive := fun hs : k.switching = false => ho.lively.current hs
  have henter : ∀ n, k.switching = false → Accounted (enterSyscall k n) extra ∧
      (enterSyscall k n).current ∈ (enterSyscall k n).allocated ∧
        ¬(enterSyscall k n).currentTask.Dead := fun n hs =>
    ⟨h.enterSyscall n, hmem, fun hd => halive hs ((TablesKept.enterSyscall k n).dead _ hd)⟩
  have hcall : ∀ {r : Int × Kernel}, k.switching = false → FdCall k.current k r.2 →
      FilesOnly k r.2 → Accounted (leaveSyscall r) extra := fun hs hfd hfiles =>
    (h.fdCall hfd hfiles hmem (halive hs)).enterSyscall _
  cases op with
  | userCode _ | runNext | checkBlockedTasks _ | sleep _ | waitpid _ _ _ | kill _ _ | raise _
  | sigaction _ _ | sigprocmask _ _ | setpgid _ _ | setsid => exact absurd rfl hkeeps
  | createKworker _ _ | kworkerExit => cases husers
  | switchTask env =>
      replace hrun := reportsNone_ok hrun
      exact hsame (h.switchTask ho hcloses hrun)
  | deliverSignals env =>
      replace hrun := reportsNone_ok hrun
      exact hsame (h.deliverSignals hcloses hmem (halive henabled.1) hrun)
  | fork new =>
      replace hrun := reportsNone_ok hrun
      obtain ⟨hentered, hin, -⟩ := henter 11 henabled.1
      exact hsame (hentered.fork hin henabled.2.2 hrun)
  | spawn env pathRes args new =>
      replace hrun := reportsNone_ok hrun
      obtain ⟨hentered, hin, -⟩ := henter 54 henabled.1
      rw [sysSpawn] at hrun
      split at hrun
      · obtain rfl := Except.ok.inj hrun
        exact hsame (hentered.enterSyscall pathRes)
      · rw [bind_ok_iff] at hrun
        obtain ⟨⟨res, k₁⟩, hspawn, hrun⟩ := hrun
        have hdone := hentered.spawn hcloses hin henabled.2.2 hspawn
        rw [← Except.ok.inj hrun] at hsame ⊢
        refine hsame ?_
        split
        · exact hdone
        · exact hdone.enterSyscall res
  | execve env pathRes args new =>
      replace hrun := reportsNone_ok hrun
      obtain ⟨hentered, hin, -⟩ := henter 12 henabled.1
      rw [sysExecve] at hrun
      split at hrun
      · obtain rfl := Except.ok.inj hrun
        exact hsame (hentered.enterSyscall pathRes)
      · rw [bind_ok_iff] at hrun
        obtain ⟨⟨res, k₁⟩, hexec, hrun⟩ := hrun
        have hdone := hentered.execve hcloses hin henabled.2.2 hexec
        rw [← Except.ok.inj hrun] at hsame ⊢
        refine hsame ?_
        split
        · exact hdone
        · exact hdone.enterSyscall pathRes
  | exit env ret =>
      replace hrun := reportsNone_ok hrun
      obtain ⟨hentered, hin, hlive⟩ := henter 0 henabled.1
      exact hsame (hentered.exit hcloses hin hlive hrun)
  | fdOpen env flags =>
      rw [Op.run, bind_ok_iff] at hrun
      obtain ⟨r, hopen, hk⟩ := hrun
      obtain ⟨-, rfl⟩ := Prod.mk.inj (Except.ok.inj hk)
      obtain ⟨extra', hdone, hkept⟩ := h.fdOpen hmem (halive henabled.1) hopen
      exact ⟨extra', hdone.enterSyscall r.1, fun hno m => (congrFun (hkept hno) m).le⟩
  | fdClose env fd =>
      obtain ⟨-, rfl⟩ := Prod.mk.inj (Except.ok.inj hrun)
      exact hsame (hcall henabled.1 (.fdClose hcloses k fd) (.fdClose env k fd))
  | fcntl fd cmd arg =>
      obtain ⟨-, rfl⟩ := Prod.mk.inj (Except.ok.inj hrun)
      exact hsame (hcall henabled.1 (.fcntl k fd cmd arg) (.fcntl k fd cmd arg))
  | dup2 env fd newFd =>
      obtain ⟨-, rfl⟩ := Prod.mk.inj (Except.ok.inj hrun)
      exact hsame (hcall henabled.1 (.dup2 hcloses k fd newFd) (.dup2 env k fd newFd))
  | pipe p =>
      obtain ⟨-, rfl⟩ := Prod.mk.inj (Except.ok.inj hrun)
      exact hsame (hcall henabled.1 (.pipe k henabled.2.2) (.pipe k p))
  | fdSocket res sock =>
      obtain ⟨-, rfl⟩ := Prod.mk.inj (Except.ok.inj hrun)
      exact hsame (hcall henabled.1 (.fdSocket k res sock) (.fdSocket k res sock))
  | mount env walk target new =>
      obtain ⟨ret, vfs, hmount, rfl⟩ := sysMounts_vfs (reportsNone_ok hrun)
      obtain ⟨extra', hdone, hle⟩ := h.setVfs (h.rooted.mountFilesystem henabled.2.2 hmount)
      exact ⟨extra', hdone.enterSyscall ret, fun _ => hle⟩
  | unmount walk path res =>
      obtain ⟨ret, vfs, hunmount, rfl⟩ := sysMounts_vfs (reportsNone_ok hrun)
      obtain ⟨extra', hdone, hle⟩ := h.setVfs (h.rooted.unmountFilesystem hunmount)
      exact ⟨extra', hdone.enterSyscall ret, fun _ => hle⟩

theorem bootTasks_closed (info : BootInfo) (t : Nat) : (bootTasks info t).Closed := by
  intro fd _
  rw [bootTasks]
  split
  · rfl
  · split <;> rfl

theorem bootKernel_rooted (info : BootInfo) : RootedTree (bootKernel info).vfs where
  tree := by
    refine ⟨Finset.mem_singleton_self info.root, fun p hp => ⟨[], ?_, ?_⟩⟩
    · rfl
    · exact fun m hm => absurd hm List.not_mem_nil
  parent := rfl

/-- When the first program starts, nothing is open. -/
theorem bootKernel_accounted (info : BootInfo) : Accounted (bootKernel info) fun _ => 0 := by
  have husers : ∀ u, users (bootKernel info) u = 0 := fun u =>
    tally_eq_zero_iff.mpr fun d _ heq => by cases heq
  have hheld : ∀ d, held (bootKernel info) d = 0 := fun d =>
    Finset.sum_eq_zero fun t _ => (bootTasks_closed info t).holds d
  refine ⟨⟨⟨fun d => ?_, fun _ _ => rfl⟩, ⟨?_, ?_, fun p => ?_⟩, fun m => ?_⟩,
    fun t _ _ => bootTasks_closed info t, bootKernel_rooted info, fun m hm => ?_⟩
  · rw [hheld]
    rfl
  · exact fun p hp => absurd hp (Finset.notMem_empty p)
  · exact fun p hp => absurd hp (Finset.notMem_empty p)
  · rw [husers, husers]
    exact iff_of_false (Finset.notMem_empty p) (lt_irrefl 0)
  · rw [husers]
    rfl
  · rw [husers] at hm
    exact absurd hm (lt_irrefl 0)

/-- Whatever user tasks do, everything that is counted is counted right but for uses of
mounts that `fd_open` has left behind. -/
theorem run_accounted (info : BootInfo) {ops : List Op}
    (hrun : Run ClosingStep (bootKernel info) ops k) :
    ∃ extra, Accounted k extra := by
  have hinv := hrun.invariant (fun k => (∃ ring, Orderly k ring) ∧ ∃ extra, Accounted k extra)
    (fun k op k' hstep hk => by
      obtain ⟨⟨ring, ho⟩, extra, h⟩ := hk
      obtain ⟨ring', ho', -⟩ := ho.step hstep.2.2
      obtain ⟨extra', h', -⟩ := step_accounted h ho hstep
      exact ⟨⟨ring', ho'⟩, extra', h'⟩)
    ⟨⟨[initTask], bootKernel_orderly info⟩, _, bootKernel_accounted info⟩
  exact hinv.2

/-- A step that also leaves no use of a mount behind. -/
def ReleasingStep (k : Kernel) (op : Op) (k' : Kernel) : Prop :=
  op.Truncates k ∧ ClosingStep k op k'

theorem run_released (info : BootInfo) {ops : List Op}
    (hrun : Run ReleasingStep (bootKernel info) ops k) : Accounted k fun _ => 0 := by
  have hinv := hrun.invariant (fun k => (∃ ring, Orderly k ring) ∧ Accounted k fun _ => 0)
    (fun k op k' hstep hk => by
      obtain ⟨⟨ring, ho⟩, h⟩ := hk
      obtain ⟨ring', ho', -⟩ := ho.step hstep.2.2.2
      obtain ⟨extra, h', hle⟩ := step_accounted h ho hstep.2
      have hnone : extra = fun _ => 0 := funext fun m => Nat.le_zero.mp (hle hstep.1 m)
      exact ⟨⟨ring', ho'⟩, hnone ▸ h'⟩)
    ⟨⟨[initTask], bootKernel_orderly info⟩, bootKernel_accounted info⟩
  exact hinv.2

/-- In every run in which closes succeed, the count of a description is the number of
descriptors that stand for it, and the counts of a pipe are the numbers of its ends that
are in use; a pipe is in memory as long as one of them is. -/
theorem description_counts_exact (info : BootInfo) {ops : List Op}
    (hrun : Run ClosingStep (bootKernel info) ops k) :
    (∀ d, (k.files d).refcount = held k d) ∧
      (∀ p ∈ k.livePipes, (k.pipes p).readerCount = users k (.reader p) ∧
        (k.pipes p).writerCount = users k (.writer p)) ∧
      ∀ p, p ∈ k.livePipes ↔ 0 < users k (.reader p) + users k (.writer p) := by
  obtain ⟨extra, h⟩ := run_accounted info hrun
  refine ⟨h.exact.refs.counts, fun p hp => ⟨?_, ?_⟩, h.exact.pipes.live⟩
  · exact h.exact.pipes.readers p hp
  · exact h.exact.pipes.writers p hp

/-- The first program makes a pipe and forks; the child copies the end that it writes to,
and closes the other. -/
def pipeShared : List Op :=
  [.pipe 9, .fork 2, .switchTask closes, .dup2 closes 1 5, .fdClose closes 0]

theorem closes_closes : closes.Closes := ⟨fun _ => le_refl _, fun _ => le_refl _⟩

set_option maxRecDepth 2000 in
theorem description_counts_shared : ∃ k,
    Run ClosingStep (bootKernel smallBoot) pipeShared k ∧
      ((k.files 0).refcount = 1 ∧ (k.files 1).refcount = 3 ∧ 9 ∈ k.livePipes) ∧
      (∀ d, (k.files d).refcount = held k d) ∧
      (∀ p ∈ k.livePipes, (k.pipes p).readerCount = users k (.reader p) ∧
        (k.pipes p).writerCount = users k (.writer p)) ∧
      ∀ p, p ∈ k.livePipes ↔ 0 < users k (.reader p) + users k (.writer p) := by
  have hruns : ∃ k ∈ runOps 8 (fun _ => true) pipeShared (bootKernel smallBoot),
      (k.files 0).refcount = 1 ∧ (k.files 1).refcount = 3 ∧ 9 ∈ k.livePipes := by
    decide +kernel
  obtain ⟨k, hk, hcounts⟩ := hruns
  have hrun : Run ClosingStep (bootKernel smallBoot) pipeShared k := by
    refine (runOps_run hk).mono_of_mem fun k op k' hop hstep => ?_
    simp only [pipeShared, List.mem_cons, List.not_mem_nil, or_false] at hop
    rcases hop with rfl | rfl | rfl | rfl | rfl
    · exact ⟨rfl, trivial, trivial, hstep.2⟩
    · exact ⟨rfl, trivial, trivial, hstep.2⟩
    · exact ⟨rfl, closes_closes, trivial, hstep.2⟩
    · exact ⟨rfl, closes_closes, trivial, hstep.2⟩
    · exact ⟨rfl, closes_closes, trivial, hstep.2⟩
  exact ⟨k, hrun, hcounts, description_counts_exact smallBoot hrun⟩

/-- The description of a file or of a directory that is in use. -/
def FileDescription.OpenFile (f : FileDescription) : Prop :=
  (f.type = .file ∨ f.type = .dir) ∧ 0 < f.refcount

theorem FileDescription.OpenFile.use {f : FileDescription} (h : f.OpenFile) :
    f.use = some (.mount f.fileHandle.mountpoint) := by
  obtain ⟨htype, hpos⟩ := h
  rw [FileDescription.use_of_pos hpos, FileDescription.purpose]
  rcases htype with htype | htype <;> rw [htype]

/-- In every run in which closes succeed, the mounts are a tree, and open files are on
mounts of the tree, which are in memory. -/
theorem open_files_on_mounts (info : BootInfo) {ops : List Op}
    (hrun : Run ClosingStep (bootKernel info) ops k) :
    MountsOrdered k.vfs ∧ ∀ d, (k.files d).OpenFile →
      Reached k.vfs (k.files d).fileHandle.mountpoint ∧
        (k.files d).fileHandle.mountpoint ∈ k.vfs.live := by
  obtain ⟨extra, h⟩ := run_accounted info hrun
  refine ⟨h.rooted.ordered, fun d hd => ?_⟩
  have hreached := h.reached _ (tally_pos (h.exact.refs.lt hd.2.ne') hd.use)
  exact ⟨hreached, h.rooted.ordered.live _ hreached⟩

/-- "mnt" is a directory of the root file system, and "f" a file of what is mounted there. -/
def mntHoldsFile : WalkEnv where
  getRoot _ := 2
  lookup m handle name :=
    if m = 1 ∧ handle = 2 ∧ name = "mnt" then .ok 5
    else if m = 7 ∧ handle = 2 ∧ name = "f" then .ok 6
    else .error eNoent
  lookup_neg h := by
    split at h
    · cases h
    · split at h
      · cases h
      · obtain rfl := Except.error.inj h
        decide

def mountMnt : Op := .mount ⟨.ok 0, true⟩ mntHoldsFile ["mnt"] 7

/-- The file opens; `truncate` is what the file system answers when it is to be truncated. -/
def opensFile (truncate : Int) : OpenEnv where
  stat := 0
  type := dtFile
  createFile := 0
  path := ["mnt", "f"]
  walk := mntHoldsFile
  fsOpen := 0
  truncate := truncate

theorem opensFile_truncates (k : Kernel) (flags : BitVec 32) :
    (Op.fdOpen (opensFile 0) flags).Truncates k := by
  rintro ⟨-, ⟨type, -, hfails⟩, -⟩
  simp [truncateFails, opensFile] at hfails

/-- A child closes the file that its parent has opened and still has open, and tries to
unmount the file system. -/
def fileShared : List Op :=
  [mountMnt, .fdOpen (opensFile 0) oTrunc, .fork 2, .switchTask closes, .fdClose closes 0,
    .unmount mntHoldsFile ["mnt"] 0]

set_option maxRecDepth 2000 in
theorem open_files_on_mounts_shared : ∃ k,
    Run ClosingStep (bootKernel smallBoot) fileShared k ∧
      ((k.files 0).OpenFile ∧ (k.files 0).fileHandle.mountpoint = 7) ∧
      MountsOrdered k.vfs ∧ ∀ d, (k.files d).OpenFile →
        Reached k.vfs (k.files d).fileHandle.mountpoint ∧
          (k.files d).fileHandle.mountpoint ∈ k.vfs.live := by
  have hruns : ∃ k ∈ runOps 8 (fun _ => true) fileShared (bootKernel smallBoot),
      (k.files 0).type = .file ∧ 0 < (k.files 0).refcount ∧
        (k.files 0).fileHandle.mountpoint = 7 := by
    decide +kernel
  obtain ⟨k, hk, htype, hpos, hmount⟩ := hruns
  have hrun : Run ClosingStep (bootKernel smallBoot) fileShared k := by
    refine (runOps_run hk).mono_of_mem fun k op k' hop hstep => ?_
    simp only [fileShared, List.mem_cons, List.not_mem_nil, or_false] at hop
    rcases hop with rfl | rfl | rfl | rfl | rfl | rfl
    · exact ⟨rfl, trivial, trivial, hstep.2⟩
    · exact ⟨rfl, trivial, trivial, hstep.2⟩
    · exact ⟨rfl, trivial, trivial, hstep.2⟩
    · exact ⟨rfl, closes_closes, trivial, hstep.2⟩
    · exact ⟨rfl, closes_closes, trivial, hstep.2⟩
    · exact ⟨rfl, trivial, trivial, hstep.2⟩
  exact ⟨k, hrun, ⟨⟨.inl htype, hpos⟩, hmount⟩, open_files_on_mounts smallBoot hrun⟩

/-- In every run in which closes succeed and `fd_open` truncates what it opens, the use
count of a mount is the number of open files on it; a mount with neither files nor mounts
on it is unmounted, unless the file system refuses. -/
theorem mount_counts_exact (info : BootInfo) {ops : List Op}
    (hrun : Run ReleasingStep (bootKernel info) ops k) :
    (∀ m, (k.vfs.mounts m).refcount = users k (.mount m)) ∧
      ∀ walk fuel path file, findMountpoint walk fuel k.vfs path = some (.ok file) →
        file.mountpoint ≠ k.vfs.root → users k (.mount file.mountpoint) = 0 →
        (k.vfs.mounts file.mountpoint).children = none →
        ∀ res, ∃ more v', unmountFilesystem walk more k.vfs path res =
          some (if res < 0 then res else 0, v') := by
  have h := run_released info hrun
  have hcounts : ∀ m, (k.vfs.mounts m).refcount = users k (.mount m) := fun m =>
    (h.exact.mounts m).trans (add_zero _)
  refine ⟨hcounts, fun walk fuel path file hfind hroot hunused hchildren res => ?_⟩
  refine h.rooted.unmounts ⟨file, hfind, hroot, ?_, hchildren⟩ res
  rw [hcounts, hunused]
  rfl

def fileClosed : List Op := [mountMnt, .fdOpen (opensFile 0) oTrunc, .fdClose closes 0]

set_option maxRecDepth 2000 in
theorem mount_counts_closed : ∃ k,
    Run ReleasingStep (bootKernel smallBoot) fileClosed k ∧
      (∀ m, (k.vfs.mounts m).refcount = users k (.mount m)) ∧
      ∃ more v', unmountFilesystem mntHoldsFile more k.vfs ["mnt"] 0 = some (0, v') := by
  have hruns : ∃ k ∈ runOps 8 (fun _ => true) fileClosed (bootKernel smallBoot),
      findMountpoint mntHoldsFile 8 k.vfs ["mnt"] = some (.ok ⟨7, 2⟩) ∧ k.vfs.root = 1 ∧
        (k.vfs.mounts 7).refcount = 0 ∧ (k.vfs.mounts 7).children = none := by
    decide
  obtain ⟨k, hk, hfind, hroot, hcount, hchildren⟩ := hruns
  have hrun : Run ReleasingStep (bootKernel smallBoot) fileClosed k := by
    refine (runOps_run hk).mono_of_mem fun k op k' hop hstep => ?_
    simp only [fileClosed, List.mem_cons, List.not_mem_nil, or_false] at hop
    rcases hop with rfl | rfl | rfl
    · exact ⟨trivial, rfl, trivial, trivial, hstep.2⟩
    · exact ⟨opensFile_truncates k _, rfl, trivial, trivial, hstep.2⟩
    · exact ⟨trivial, rfl, closes_closes, trivial, hstep.2⟩
  obtain ⟨hcounts, hunmount⟩ := mount_counts_exact smallBoot hrun
  refine ⟨k, hrun, hcounts, hunmount mntHoldsFile 8 ["mnt"] ⟨7, 2⟩ hfind ?_ ?_ hchildren 0⟩
  · rw [hroot]
    decide
  · exact_mod_cast (hcounts 7).symm.trans hcount

set_option maxRecDepth 10000 in
/-- The file system is read-only, and cannot truncate the file that it has opened: no
descriptor and no description stands for it, and the mount is in use for good. -/
theorem failed_truncation_keeps_mount : ∃ k,
    Run Step (bootKernel smallBoot) [mountMnt, .fdOpen (opensFile eRofs) oTrunc] k ∧
      (k.vfs.mounts 7).refcount = 1 ∧ users k (.mount 7) = 0 ∧
      (k.vfs.mounts 7).children = none ∧
      ∃ v', unmountFilesystem mntHoldsFile 8 k.vfs ["mnt"] 0 = some (eBusy, v') := by
  have hruns : ∃ k ∈ runOps 8 (fun _ => true) [mountMnt, .fdOpen (opensFile eRofs) oTrunc]
      (bootKernel smallBoot), (k.vfs.mounts 7).refcount = 1 ∧ users k (.mount 7) = 0 ∧
        (k.vfs.mounts 7).children = none ∧
        (unmountFilesystem mntHoldsFile 8 k.vfs ["mnt"] 0).map Prod.fst = some eBusy := by
    decide +kernel
  obtain ⟨k, hk, hcount, hunused, hchildren, hunmount⟩ := hruns
  obtain ⟨⟨ret, v'⟩, hcall, rfl⟩ := Option.map_eq_some_iff.mp hunmount
  exact ⟨k, (runOps_run hk).mono fun _ _ _ hstep => hstep.2, hcount, hunused, hchildren, v', hcall⟩

end GlitchedOS
