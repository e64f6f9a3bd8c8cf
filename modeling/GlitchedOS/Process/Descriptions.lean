/-
Exact counts of file descriptions.  The reference count of a description is the
number of descriptors that stand for it, the counts of a pipe are the numbers of
its ends that are in use, and the use count of a mount is the number of open
files on it, up to what failed calls have left behind.
-/
import GlitchedOS.Lib.Tally
import GlitchedOS.Process.SchedOnly

namespace GlitchedOS

variable {k k' k'' : Kernel}

/-- How many descriptors of a task stand for the description `d`. -/
def Task.holds (x : Task) (d : Nat) : Nat :=
  tally maxFds (fun fd => (x.fdTable fd).fd) (some d)

/-- How many descriptors of all tasks stand for the description `d`. -/
def held (k : Kernel) (d : Nat) : Nat := ∑ t ∈ k.allocated, (k.tasks t).holds d

/-- What a description is used for. -/
inductive Use where
  | mount (m : Nat)
  | reader (p : Nat)
  | writer (p : Nat)
  | socket
deriving Repr, DecidableEq

def FileDescription.purpose (f : FileDescription) : Use :=
  match f.type with
  | .file | .dir => .mount f.fileHandle.mountpoint
  | .socket => .socket
  | .pipe => if f.flags &&& oAccess = oRdonly then .reader f.pipe else .writer f.pipe

/-- What a description is used for, while it is in use. -/
def FileDescription.use (f : FileDescription) : Option Use :=
  if 0 < f.refcount then some f.purpose else none

/-- How many descriptions are in use for `u`. -/
def users (k : Kernel) (u : Use) : Nat :=
  tally maxFiles (fun d => (k.files d).use) (some u)

/-- Reference counts are exact. -/
structure RefsExact (k : Kernel) : Prop where
  counts : ∀ d, (k.files d).refcount = held k d
  bound : ∀ d, maxFiles ≤ d → (k.files d).refcount = 0

/-- The counts of pipes are exact, and a pipe is in memory while an end is used. -/
structure PipesExact (k : Kernel) : Prop where
  readers : ∀ p ∈ k.livePipes, (k.pipes p).readerCount = users k (.reader p)
  writers : ∀ p ∈ k.livePipes, (k.pipes p).writerCount = users k (.writer p)
  live : ∀ p, p ∈ k.livePipes ↔ 0 < users k (.reader p) + users k (.writer p)

/-- The use counts of mounts are exact but for `extra` uses. -/
def MountsExact (k : Kernel) (extra : Nat → Nat) : Prop :=
  ∀ m, (k.vfs.mounts m).refcount = users k (.mount m) + extra m

/-! ### One entry of a table -/

theorem Task.holds_setFd (x : Task) {fd : Nat} (e : Fd) (d : Nat)
    (hfd : fd < maxFds) :
    (x.setFd fd e).holds d + (if (x.fdTable fd).fd = some d then 1 else 0) =
      x.holds d + if e.fd = some d then 1 else 0 := by
  have hpush : (fun i => ((x.setFd fd e).fdTable i).fd) =
      Function.update (fun i => (x.fdTable i).fd) fd e.fd :=
    funext fun i => Function.apply_update (fun _ => Fd.fd) x.fdTable fd e i
  rw [Task.holds, hpush]
  exact tally_update (fun i => (x.fdTable i).fd) (some d) e.fd hfd

theorem held_modifyTask (k : Kernel) {t : Nat} (f : Task → Task) (d : Nat)
    (ht : t ∈ k.allocated) :
    held (k.modifyTask t f) d + (k.tasks t).holds d =
      held k d + (f (k.tasks t)).holds d :=
  sum_update_swap k.allocated (·.holds d) k.tasks ht (f (k.tasks t))

theorem held_setFd (k : Kernel) {t fd : Nat} (e : Fd) (d : Nat)
    (ht : t ∈ k.allocated) (hfd : fd < maxFds) :
    held (k.modifyTask t fun x => x.setFd fd e) d +
        (if ((k.tasks t).fdTable fd).fd = some d then 1 else 0) =
      held k d + if e.fd = some d then 1 else 0 := by
  have hsum := held_modifyTask k (fun x => x.setFd fd e) d ht
  have hone := (k.tasks t).holds_setFd e d hfd
  omega

theorem Task.holds_congr {x y : Task} (h : ∀ fd < maxFds, (y.fdTable fd).fd = (x.fdTable fd).fd)
    (d : Nat) : y.holds d = x.holds d :=
  tally_congr (some d) h

theorem held_congr (halloc : k'.allocated = k.allocated)
    (htable : ∀ t, ∀ fd < maxFds, ((k'.tasks t).fdTable fd).fd = ((k.tasks t).fdTable fd).fd)
    (d : Nat) : held k' d = held k d := by
  rw [held, held, halloc]
  exact Finset.sum_congr rfl fun t _ => Task.holds_congr (htable t) d

theorem RefsExact.pos (h : RefsExact k) {t fd d : Nat} (ht : t ∈ k.allocated)
    (hfd : fd < maxFds) (hd : ((k.tasks t).fdTable fd).fd = some d) :
    0 < (k.files d).refcount := by
  have hone : 0 < (k.tasks t).holds d := tally_pos hfd hd
  have hsum : (k.tasks t).holds d ≤ held k d :=
    Finset.single_le_sum (f := fun t => (k.tasks t).holds d)
      (fun _ _ => Nat.zero_le _) ht
  rw [h.counts]
  omega

theorem RefsExact.lt (h : RefsExact k) {d : Nat} (hd : (k.files d).refcount ≠ 0) :
    d < maxFiles := by
  by_contra hge
  exact hd (h.bound d (not_lt.mp hge))

theorem RefsExact.setFd (h : RefsExact k) {t fd : Nat} {e : Fd}
    (ht : t ∈ k.allocated) (hfd : fd < maxFds)
    (halloc : k'.allocated = k.allocated)
    (htasks : k'.tasks = (k.modifyTask t fun x => x.setFd fd e).tasks)
    (hcounts : ∀ d, (k'.files d).refcount +
        (if ((k.tasks t).fdTable fd).fd = some d then 1 else 0) =
      (k.files d).refcount + if e.fd = some d then 1 else 0)
    (hbound : ∀ d, e.fd = some d → d < maxFiles) : RefsExact k' := by
  have hheld : ∀ d, held k' d = held (k.modifyTask t fun x => x.setFd fd e) d :=
    held_congr halloc fun u fd _ => by rw [htasks]
  have hcount : ∀ d, (k'.files d).refcount = held k' d := by
    intro d
    have hfile := hcounts d
    have hsum := held_setFd k e d ht hfd
    have hold := h.counts d
    rw [hheld]
    split_ifs at hfile hsum <;> omega
  refine ⟨hcount, fun d hd => ?_⟩
  have hfile := hcounts d
  have hold := h.bound d hd
  have hpos : 0 ≤ (k'.files d).refcount := by
    rw [hcount]
    exact Int.natCast_nonneg _
  rw [if_neg fun heq => absurd (hbound d heq) (not_lt.mpr hd)] at hfile
  split at hfile <;> omega

/-! ### Uses of descriptions -/

theorem users_congr (h : ∀ d, (k'.files d).use = (k.files d).use) (u : Use) :
    users k' u = users k u :=
  tally_congr (some u) fun d _ => h d

theorem users_of_files (h : k'.files = k.files) (u : Use) : users k' u = users k u :=
  users_congr (fun d => by rw [h]) u

theorem users_modifyFile (k : Kernel) {d : Nat}
    (f : FileDescription → FileDescription) (u : Use) (hd : d < maxFiles) :
    users (k.modifyFile d f) u + (if (k.files d).use = some u then 1 else 0) =
      users k u + if (f (k.files d)).use = some u then 1 else 0 := by
  have hpush : (fun i => ((k.modifyFile d f).files i).use) =
      Function.update (fun i => (k.files i).use) d (f (k.files d)).use :=
    funext fun i => Function.apply_update (fun _ => FileDescription.use) k.files d
      (f (k.files d)) i
  rw [users, hpush]
  exact tally_update (fun i => (k.files i).use) (some u) _ hd

theorem FileDescription.use_of_pos {f : FileDescription} (h : 0 < f.refcount) :
    f.use = some f.purpose := if_pos h

theorem FileDescription.use_of_zero {f : FileDescription} (h : f.refcount = 0) :
    f.use = none := if_neg (by omega)

theorem FileDescription.use_congr {f g : FileDescription}
    (hpurpose : g.purpose = f.purpose) (hf : 0 < f.refcount) (hg : 0 < g.refcount) :
    g.use = f.use := by
  rw [use_of_pos hf, use_of_pos hg, hpurpose]

/-- What the last `close_file_description` gives back. -/
def retire (k : Kernel) : Use → Kernel
  | .mount m => { k with vfs := k.vfs.release m }
  | .reader p => removePipeReader k p
  | .writer p => removePipeWriter k p
  | .socket => k

theorem retire_frame (k : Kernel) (u : Use) :
    (retire k u).tasks = k.tasks ∧ (retire k u).allocated = k.allocated ∧
      (retire k u).files = k.files ∧ (retire k u).current = k.current := by
  have hfree : ∀ (k : Kernel) p, (freePipe k p).tasks = k.tasks ∧
      (freePipe k p).allocated = k.allocated ∧ (freePipe k p).files = k.files ∧
      (freePipe k p).current = k.current := by
    intro k p
    rw [freePipe]
    split <;> exact ⟨rfl, rfl, rfl, rfl⟩
  cases u with
  | mount m => exact ⟨rfl, rfl, rfl, rfl⟩
  | reader p => exact hfree _ p
  | writer p => exact hfree _ p
  | socket => exact ⟨rfl, rfl, rfl, rfl⟩

/-- Closing a file or a socket succeeds. -/
structure CloseEnv.Closes (env : CloseEnv) : Prop where
  close : ∀ d, 0 ≤ env.close d
  socketClose : ∀ d, 0 ≤ env.socketClose d

theorem closeFileDescription_eq {env : CloseEnv} (henv : env.Closes) (k : Kernel)
    (d : Nat) : closeFileDescription env k d = (0, (retire k
      (k.files d).purpose).modifyFile d fun f => { f with offset := 0 }) := by
  have hfile := not_lt.mpr (henv.close d)
  have hsocket := not_lt.mpr (henv.socketClose d)
  rw [closeFileDescription, FileDescription.purpose]
  cases htype : (k.files d).type with
  | file => simp only [if_neg hfile]; rfl
  | dir => simp only [if_neg hfile]; rfl
  | socket => simp only [if_neg hsocket]; rfl
  | pipe =>
      dsimp only
      split <;> rfl

/-- A description that was in use for `u` no longer is. -/
def Retired (k : Kernel) (u : Use) (k' : Kernel) : Prop :=
  ∀ v, users k' v + (if u = v then 1 else 0) = users k v

/-- One count of the pipe `q` goes down, and the pipe is freed with its last end. -/
theorem PipesExact.lower (h : PipesExact k) {q : Nat} {f : Pipe → Pipe}
    (hpipes : k'.pipes = k.pipes) (hlive : k'.livePipes = k.livePipes)
    (hother : ∀ p, p ≠ q → users k' (.reader p) = users k (.reader p) ∧
      users k' (.writer p) = users k (.writer p))
    (hreader : (f (k.pipes q)).readerCount = users k' (.reader q))
    (hwriter : (f (k.pipes q)).writerCount = users k' (.writer q))
    (hq : q ∈ k.livePipes) : PipesExact (freePipe (k'.modifyPipe q f) q) := by
  have hfiles : ∀ v, users (freePipe (k'.modifyPipe q f) q) v = users k' v := by
    refine users_of_files ?_
    rw [freePipe]
    split <;> rfl
  have hpipe : ∀ p, (freePipe (k'.modifyPipe q f) q).pipes p =
      if p = q then f (k.pipes q) else k.pipes p := by
    intro p
    have hsame : (freePipe (k'.modifyPipe q f) q).pipes =
        (k'.modifyPipe q f).pipes := by
      rw [freePipe]
      split <;> rfl
    rw [hsame, Kernel.modifyPipe, hpipes]
    exact Function.update_apply _ _ _ _
  have hset : ∀ p, p ∈ (freePipe (k'.modifyPipe q f) q).livePipes ↔
      p ∈ k.livePipes ∧
        (p = q → 0 < users k' (.reader q) + users k' (.writer q)) := by
    intro p
    have hcounts : (k'.modifyPipe q f).pipes q = f (k.pipes q) := by
      rw [Kernel.modifyPipe, hpipes]
      exact Function.update_self _ _ _
    rw [freePipe, hcounts, hreader, hwriter]
    split
    · rename_i hzero
      show p ∈ k'.livePipes.erase q ↔ _
      rw [Finset.mem_erase, hlive]
      refine ⟨fun hp => ⟨hp.2, fun heq => absurd heq hp.1⟩, fun hp => ⟨?_, hp.1⟩⟩
      intro heq
      have hpos := hp.2 heq
      omega
    · rename_i hsome
      show p ∈ k'.livePipes ↔ _
      rw [hlive]
      refine ⟨fun hp => ⟨hp, fun _ => ?_⟩, fun hp => hp.1⟩
      omega
  refine ⟨fun p hp => ?_, fun p hp => ?_, fun p => ?_⟩
  · rw [hpipe, hfiles]
    split
    · rename_i heq
      rw [heq, hreader]
    · rename_i hne
      rw [(hother p hne).1]
      exact h.readers p ((hset p).mp hp).1
  · rw [hpipe, hfiles]
    split
    · rename_i heq
      rw [heq, hwriter]
    · rename_i hne
      rw [(hother p hne).2]
      exact h.writers p ((hset p).mp hp).1
  · rw [hset, hfiles, hfiles]
    by_cases hpq : p = q
    · subst hpq
      exact ⟨fun hp => hp.2 rfl, fun hpos => ⟨hq, fun _ => hpos⟩⟩
    · rw [(hother p hpq).1, (hother p hpq).2, ← h.live p]
      exact ⟨fun hp => hp.1, fun hp => ⟨hp, fun heq => absurd heq hpq⟩⟩

theorem PipesExact.congr (h : PipesExact k) (hpipes : k'.pipes = k.pipes)
    (hlive : k'.livePipes = k.livePipes)
    (hreader : ∀ p, users k' (.reader p) = users k (.reader p))
    (hwriter : ∀ p, users k' (.writer p) = users k (.writer p)) :
    PipesExact k' where
  readers := fun p hp => by
    rw [hpipes, hreader]
    exact h.readers p (hlive ▸ hp)
  writers := fun p hp => by
    rw [hpipes, hwriter]
    exact h.writers p (hlive ▸ hp)
  live := fun p => by
    rw [hlive, hreader, hwriter]
    exact h.live p

theorem PipesExact.retire (h : PipesExact k) {u : Use} (hgone : Retired k u k')
    (hpipes : k'.pipes = k.pipes) (hlive : k'.livePipes = k.livePipes) :
    PipesExact (GlitchedOS.retire k' u) := by
  have hother : ∀ v, u ≠ v → users k' v = users k v := fun v hne => by
    have heq := hgone v
    rwa [if_neg hne] at heq
  have hself : users k' u + 1 = users k u := by
    have heq := hgone u
    rwa [if_pos rfl] at heq
  cases u with
  | mount m =>
      exact h.congr hpipes hlive (fun p => hother _ (by simp))
        fun p => hother _ (by simp)
  | socket =>
      exact h.congr hpipes hlive (fun p => hother _ (by simp))
        fun p => hother _ (by simp)
  | reader q =>
      have hq : q ∈ k.livePipes := (h.live q).mpr (by omega)
      have hcounts := h.readers q hq
      refine h.lower hpipes hlive (fun p hpq => ⟨?_, ?_⟩) ?_ ?_ hq
      · exact hother _ (by simpa using Ne.symm hpq)
      · exact hother _ (by simp)
      · dsimp only
        omega
      · rw [hother _ (by simp)]
        exact h.writers q hq
  | writer q =>
      have hq : q ∈ k.livePipes := (h.live q).mpr (by omega)
      have hcounts := h.writers q hq
      refine h.lower hpipes hlive (fun p hpq => ⟨?_, ?_⟩) ?_ ?_ hq
      · exact hother _ (by simp)
      · exact hother _ (by simpa using Ne.symm hpq)
      · rw [hother _ (by simp)]
        exact h.readers q hq
      · dsimp only
        omega

theorem MountsExact.retire {extra : Nat → Nat} (h : MountsExact k extra) {u : Use}
    (hgone : Retired k u k') (hvfs : k'.vfs = k.vfs) :
    MountsExact (GlitchedOS.retire k' u) extra := by
  intro m
  have hone := hgone (.mount m)
  have hold := h m
  rw [users_of_files (retire_frame k' u).2.2.1]
  have hkept : u ≠ .mount m → (GlitchedOS.retire k' u).vfs = k.vfs →
      ((GlitchedOS.retire k' u).vfs.mounts m).refcount =
        users k' (.mount m) + extra m := by
    intro hne hsame
    rw [if_neg hne] at hone
    rw [hsame]
    omega
  have hpipe : ∀ (k : Kernel) p, (freePipe k p).vfs = k.vfs := by
    intro k p
    rw [freePipe]
    split <;> rfl
  cases u with
  | mount n =>
      show ((k'.vfs.release n).mounts m).refcount = _
      rw [MountTable.release, MountTable.modify_mounts, hvfs]
      by_cases hmn : m = n
      · subst hmn
        rw [if_pos rfl] at hone
        rw [if_pos rfl]
        dsimp only
        omega
      · rw [if_neg fun heq => hmn (Use.mount.inj heq).symm] at hone
        rw [if_neg hmn]
        omega
  | socket => exact hkept (by simp) hvfs
  | reader p => exact hkept (by simp) ((hpipe _ p).trans hvfs)
  | writer p => exact hkept (by simp) ((hpipe _ p).trans hvfs)

/-! ### Descriptors -/

/-- Everything that is counted is counted right. -/
structure FilesExact (k : Kernel) (extra : Nat → Nat) : Prop where
  refs : RefsExact k
  pipes : PipesExact k
  mounts : MountsExact k extra

/-- The descriptor `fd` of `t` stood for `d` and is closed. -/
def dropEntry (env : CloseEnv) (k : Kernel) (t fd d : Nat) : Kernel :=
  let k := dropRef k d
  let k := if (k.files d).refcount = 0 then (closeFileDescription env k d).2 else k
  k.modifyTask t fun x => x.setFd fd ⟨none, 0#32⟩

/-- The descriptor `fd` of `t` comes to stand for `d` too. -/
def shareEntry (k : Kernel) (t fd d : Nat) (flags : BitVec 32) : Kernel :=
  addRef (k.modifyTask t fun x => x.setFd fd ⟨some d, flags⟩) d

theorem Kernel.modifyFile_apply (k : Kernel) (d : Nat)
    (f : FileDescription → FileDescription) (c : Nat) :
    (k.modifyFile d f).files c = if c = d then f (k.files d) else k.files c :=
  Function.update_apply _ _ _ _

theorem Kernel.modifyFile_modifyFile (k : Kernel) (d : Nat)
    (f g : FileDescription → FileDescription) :
    (k.modifyFile d f).modifyFile d g = k.modifyFile d fun x => g (f x) := by
  simp only [Kernel.modifyFile, Function.update_self, Function.update_idem]

theorem FilesExact.dropEntry {extra : Nat → Nat} (h : FilesExact k extra)
    {env : CloseEnv} (henv : env.Closes) {t fd d : Nat} (ht : t ∈ k.allocated)
    (hfd : fd < maxFds) (hd : ((k.tasks t).fdTable fd).fd = some d) :
    FilesExact (GlitchedOS.dropEntry env k t fd d) extra := by
  have hpos := h.refs.pos ht hfd hd
  have hlt := h.refs.lt hpos.ne'
  have hold := (k.files d).use_of_pos hpos
  have hfile : (dropRef k d).files d =
      { k.files d with refcount := (k.files d).refcount - 1 } := by
    rw [dropRef, Kernel.modifyFile_apply, if_pos rfl]
  have hpurpose : ((dropRef k d).files d).purpose = (k.files d).purpose := by
    rw [hfile]
    rfl
  rw [GlitchedOS.dropEntry, closeFileDescription_eq henv, hpurpose, hfile]
  have hrefs : ∀ k₁ : Kernel, k₁.tasks = k.tasks → k₁.allocated = k.allocated →
      (∀ c, (k₁.files c).refcount = ((dropRef k d).files c).refcount) →
      RefsExact (k₁.modifyTask t fun x => x.setFd fd ⟨none, 0#32⟩) := by
    intro k₁ htasks halloc hcounts
    refine h.refs.setFd (e := ⟨none, 0#32⟩) ht hfd halloc ?_ ?_ ?_
    · rw [Kernel.modifyTask, Kernel.modifyTask, htasks]
    · intro c
      show (k₁.files c).refcount + _ = _
      rw [hcounts, dropRef, Kernel.modifyFile_apply, hd]
      by_cases hc : c = d
      · subst hc
        simp
      · simp [hc, Ne.symm hc]
    · exact fun c hc => absurd hc (by simp)
  split
  · rename_i hzero
    have hgone : Retired k (k.files d).purpose (dropRef k d) := by
      intro v
      have hone := users_modifyFile k (fun f =>
        { f with refcount := f.refcount - 1 }) v hlt
      rw [hold, FileDescription.use_of_zero hzero] at hone
      simp only [reduceCtorEq, if_false, Option.some.injEq] at hone
      exact hone
    obtain ⟨htasks, halloc, hfiles, -⟩ := retire_frame (dropRef k d)
      (k.files d).purpose
    have huses : ∀ v, users (((retire (dropRef k d)
        (k.files d).purpose).modifyFile d fun f =>
          { f with offset := 0 }).modifyTask t fun x => x.setFd fd ⟨none, 0#32⟩) v =
        users (retire (dropRef k d) (k.files d).purpose) v := by
      refine users_congr fun c => ?_
      show (((retire (dropRef k d) (k.files d).purpose).modifyFile d fun f =>
        { f with offset := 0 }).files c).use = _
      rw [Kernel.modifyFile_apply]
      split
      · rename_i hc
        rw [hc]
        rfl
      · rfl
    have hpipes := h.pipes.retire hgone rfl rfl
    have hmounts := h.mounts.retire hgone rfl
    refine ⟨hrefs _ htasks halloc fun c => ?_, ?_, fun m => ?_⟩
    · rw [Kernel.modifyFile_apply, hfiles]
      split
      · rename_i hc
        rw [hc]
      · rfl
    · exact hpipes.congr rfl rfl (fun p => huses _) fun p => huses _
    · rw [huses]
      exact hmounts m
  · rename_i hmore
    change (k.files d).refcount - 1 ≠ 0 at hmore
    have huses : ∀ v, users ((dropRef k d).modifyTask t fun x =>
        x.setFd fd ⟨none, 0#32⟩) v = users k v := by
      refine users_congr fun c => ?_
      show ((dropRef k d).files c).use = _
      rw [dropRef, Kernel.modifyFile_apply]
      split
      · rename_i hc
        rw [hc]
        refine FileDescription.use_congr rfl hpos ?_
        dsimp only
        omega
      · rfl
    refine ⟨hrefs _ rfl rfl fun c => rfl, ?_, fun m => ?_⟩
    · exact h.pipes.congr rfl rfl (fun p => huses _) fun p => huses _
    · rw [huses]
      exact h.mounts m

theorem FilesExact.shareEntry {extra : Nat → Nat} (h : FilesExact k extra)
    {t fd d : Nat} (flags : BitVec 32) (ht : t ∈ k.allocated) (hfd : fd < maxFds)
    (hfree : ((k.tasks t).fdTable fd).fd = none)
    (hpos : 0 < (k.files d).refcount) :
    FilesExact (GlitchedOS.shareEntry k t fd d flags) extra := by
  have hfile : ∀ c, (GlitchedOS.shareEntry k t fd d flags).files c =
      if c = d then { k.files d with refcount := (k.files d).refcount + 1 }
      else k.files c := fun c => by
    rw [GlitchedOS.shareEntry, addRef, Kernel.modifyFile_apply]
    rfl
  have huses : ∀ v, users (GlitchedOS.shareEntry k t fd d flags) v = users k v := by
    refine users_congr fun c => ?_
    rw [hfile]
    split
    · rename_i hc
      rw [hc]
      refine FileDescription.use_congr rfl hpos ?_
      dsimp only
      omega
    · rfl
  refine ⟨?_, ?_, fun m => ?_⟩
  · refine h.refs.setFd (e := ⟨some d, flags⟩) ht hfd rfl rfl (fun c => ?_) fun c hc => ?_
    · rw [hfile, hfree]
      by_cases hc : c = d
      · subst hc
        simp
      · simp [hc, Ne.symm hc]
    · obtain rfl := Option.some.inj hc
      exact h.refs.lt hpos.ne'
  · exact h.pipes.congr rfl rfl (fun p => huses _) fun p => huses _
  · rw [huses]
    exact h.mounts m

theorem freeSlot_spec {x : Task} {n i j : Nat} (h : freeSlot x n i = some j) :
    i ≤ j ∧ j < i + n ∧ (x.fdTable j).fd = none := by
  induction n generalizing i with
  | zero => cases h
  | succ n ih =>
      rw [freeSlot] at h
      split at h
      · rename_i hfree
        obtain rfl := Option.some.inj h
        exact ⟨le_refl _, by omega, hfree⟩
      · obtain ⟨hle, hlt, hfree⟩ := ih h
        exact ⟨by omega, by omega, hfree⟩

theorem freeDescription_spec {files : Nat → FileDescription} {n i j : Nat}
    (h : freeDescription files n i = some j) :
    i ≤ j ∧ j < i + n ∧ (files j).refcount = 0 := by
  induction n generalizing i with
  | zero => cases h
  | succ n ih =>
      rw [freeDescription] at h
      split at h
      · rename_i hfree
        obtain rfl := Option.some.inj h
        exact ⟨le_refl _, by omega, hfree⟩
      · obtain ⟨hle, hlt, hfree⟩ := ih h
        exact ⟨by omega, by omega, hfree⟩

/-- The free description `i` becomes `f`, and the free descriptor `fd` of `t`
stands for it. -/
def openEntry (k : Kernel) (t fd i : Nat) (f : FileDescription)
    (flags : BitVec 32) : Kernel :=
  (k.modifyFile i fun _ => f).modifyTask t fun x => x.setFd fd ⟨some i, flags⟩

theorem RefsExact.openEntry (h : RefsExact k) {t fd i : Nat} {f : FileDescription}
    (flags : BitVec 32) (ht : t ∈ k.allocated) (hfd : fd < maxFds)
    (hslot : ((k.tasks t).fdTable fd).fd = none)
    (hi : i < maxFiles) (hfree : (k.files i).refcount = 0) (hf : f.refcount = 1) :
    RefsExact (GlitchedOS.openEntry k t fd i f flags) := by
  refine h.setFd (e := ⟨some i, flags⟩) ht hfd rfl rfl (fun c => ?_) fun c hc => ?_
  · have hfile : (GlitchedOS.openEntry k t fd i f flags).files c =
        if c = i then f else k.files c := by
      show (k.modifyFile i fun _ => f).files c = _
      rw [Kernel.modifyFile_apply]
    rw [hfile, hslot]
    by_cases hc : c = i
    · subst hc
      simp [hf, hfree]
    · simp [hc, Ne.symm hc]
  · obtain rfl := Option.some.inj hc
    exact hi

theorem users_openEntry (k : Kernel) {t fd i : Nat} {f : FileDescription}
    (flags : BitVec 32) (hi : i < maxFiles) (hfree : (k.files i).refcount = 0)
    (hf : f.refcount = 1) (v : Use) :
    users (openEntry k t fd i f flags) v =
      users k v + if f.purpose = v then 1 else 0 := by
  have hone := users_modifyFile k (fun _ => f) v hi
  have hpos : 0 < f.refcount := by omega
  have hfiles : (openEntry k t fd i f flags).files =
      (k.modifyFile i fun _ => f).files := rfl
  rw [FileDescription.use_of_zero hfree, FileDescription.use_of_pos hpos] at hone
  simp only [reduceCtorEq, if_false, Option.some.injEq] at hone
  rw [users_of_files hfiles]
  exact hone

theorem FilesExact.congr {extra : Nat → Nat} (h : FilesExact k extra)
    (hheld : ∀ c, held k' c = held k c)
    (hcount : ∀ c, (k'.files c).refcount = (k.files c).refcount)
    (huse : ∀ c, (k'.files c).use = (k.files c).use) (hpipes : k'.pipes = k.pipes)
    (hlive : k'.livePipes = k.livePipes)
    (hmounts : ∀ m, (k'.vfs.mounts m).refcount = (k.vfs.mounts m).refcount) :
    FilesExact k' extra := by
  have husers := users_congr huse
  refine ⟨⟨fun c => ?_, fun c hc => ?_⟩, ?_, fun m => ?_⟩
  · rw [hcount, hheld]
    exact h.refs.counts c
  · rw [hcount]
    exact h.refs.bound c hc
  · exact h.pipes.congr hpipes hlive (fun p => husers _) fun p => husers _
  · rw [hmounts, husers]
    exact h.mounts m

theorem FilesExact.modifyFree {extra : Nat → Nat} (h : FilesExact k extra)
    {i : Nat} {f : FileDescription → FileDescription}
    (hfree : (k.files i).refcount = 0) (hf : (f (k.files i)).refcount = 0) :
    FilesExact (k.modifyFile i f) extra := by
  have hfile := Kernel.modifyFile_apply k i f
  refine h.congr (fun _ => rfl) (fun c => ?_) (fun c => ?_) rfl rfl fun _ => rfl
  · rw [hfile]
    split
    · rename_i hc
      rw [hc, hf, hfree]
    · rfl
  · rw [hfile]
    split
    · rename_i hc
      rw [hc, FileDescription.use_of_zero hf, FileDescription.use_of_zero hfree]
    · rfl

theorem fdOpen_cases {env : OpenEnv} {fuel : Nat} {flags : BitVec 32}
    {r : Int × Kernel} (h : fdOpen env fuel k flags = .ok r) :
    r.2 = k ∨ ∃ type slot i, checkOpen env flags = .ok type ∧
      freeSlot k.currentTask maxFds 0 = some slot ∧
      freeDescription k.files maxFiles 0 = some i ∧ ∃ file,
        findMountpoint env.walk fuel k.vfs env.path = some (.ok file) ∧
        ((env.fsOpen < 0 ∧
            r.2 = k.modifyFile i fun f => { f with fileHandle := file }) ∨
          (0 ≤ env.fsOpen ∧ truncateFails env flags type = true ∧
            r.2 = { k.modifyFile i fun f => { f with fileHandle := ⟨0, 0⟩ } with
              vfs := k.vfs.acquire file.mountpoint }) ∨
          (0 ≤ env.fsOpen ∧ r.2 = { openEntry k k.current slot i
            { k.files i with
              fileHandle := file, type := if type = dtDir then .dir else .file,
              offset := 0, flags := flags &&& ~~~oCloexec, refcount := 1 }
            (flags &&& oCloexec) with
              vfs := k.vfs.acquire file.mountpoint })) := by
  rw [fdOpen] at h
  split at h
  · rw [← Except.ok.inj h]
    exact Or.inl rfl
  rename_i type hcheck
  split at h
  · rw [← Except.ok.inj h]
    exact Or.inl rfl
  rename_i slot hslot
  split at h
  · rw [← Except.ok.inj h]
    exact Or.inl rfl
  rename_i i hi
  rw [openDescription, bind_ok_iff] at h
  obtain ⟨⟨res, k₁⟩, hopen, h⟩ := h
  dsimp only at h
  rw [openFile] at hopen
  split at hopen
  · cases hopen
  · rename_i hfind
    obtain ⟨rfl, rfl⟩ := Prod.mk.inj (Except.ok.inj hopen)
    have hneg := findMountpoint_neg hfind
    split at h
    · rw [← Except.ok.inj h]
      exact Or.inl rfl
    · exact absurd hneg ‹_›
  rename_i file hfind
  refine Or.inr ⟨type, slot, i, hcheck, hslot, hi, file, hfind, ?_⟩
  dsimp only at hopen
  split at hopen
  · rename_i hneg
    obtain ⟨rfl, rfl⟩ := Prod.mk.inj (Except.ok.inj hopen)
    rw [if_pos hneg] at h
    rw [← Except.ok.inj h]
    exact Or.inl ⟨hneg, rfl⟩
  rename_i hpos
  obtain ⟨rfl, rfl⟩ := Prod.mk.inj (Except.ok.inj hopen)
  rw [if_neg (by decide)] at h
  split at h
  · rename_i htrunc
    rw [← Except.ok.inj h]
    refine Or.inr (Or.inl ⟨not_lt.mp hpos, htrunc, ?_⟩)
    have htwice := k.modifyFile_modifyFile i (fun f => { f with fileHandle := file })
      fun f => { f with fileHandle := ⟨0, 0⟩ }
    exact congrArg (fun k₁ : Kernel =>
      { k₁ with vfs := k.vfs.acquire file.mountpoint }) htwice
  · rw [← Except.ok.inj h]
    refine Or.inr (Or.inr ⟨not_lt.mp hpos, ?_⟩)
    have htwice := k.modifyFile_modifyFile i (fun f => { f with fileHandle := file })
      fun f => { f with type := if type = dtDir then .dir else .file, offset := 0,
                        flags := flags &&& ~~~oCloexec, refcount := 1 }
    exact congrArg (fun k₁ : Kernel =>
      { k₁.modifyTask k.current fun t => t.setFd slot ⟨some i, flags &&& oCloexec⟩
        with vfs := k.vfs.acquire file.mountpoint }) htwice

end GlitchedOS
