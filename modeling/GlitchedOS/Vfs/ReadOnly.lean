/-
Mounts that must not change.  A driver whose operations refuse to change a mount makes
every call that reaches it leave the mount as it is.
-/
import GlitchedOS.Vfs.Calls

namespace GlitchedOS

namespace Filesystem

variable {σ ε α : Type}

/-- What a driver has to do for a mount in the states `ro`: its operations, but for
`truncate`, refuse, for paths that fit its buffers, and opening and closing keep what
the mount holds. -/
structure Refuses (fs : Filesystem σ ε) (ro : σ → Prop) (fits : List Char → Prop)
    (view : σ → α) : Prop where
  createFile : ∀ {env s path}, ro s → fits path →
    ∃ res < 0, fs.createFile env s path = some (res, s)
  createDirectory : ∀ {env s path}, ro s → fits path →
    ∃ res < 0, fs.createDirectory env s path = some (res, s)
  mknod : ∀ {op env s path type device}, fs.mknod = some op → ro s →
    ∃ res < 0, op env s path type device = some (res, s)
  write : ∀ {env s handle buffer offset}, ro s →
    ∃ res < 0, fs.write env s handle buffer offset = some (res, s)
  remove : ∀ {env s path}, ro s → ∃ res < 0, fs.remove env s path = some (res, s)
  rename : ∀ {env s oldPath newPath}, ro s →
    ∃ res < 0, fs.rename env s oldPath newPath = some (res, s)
  openFile : ∀ {env s handle res s'}, ro s →
    optional env fs.openFile s handle = some (res, s') → ro s' ∧ view s' = view s
  closeFile : ∀ {env s handle res s'}, ro s →
    optional env fs.closeFile s handle = some (res, s') → ro s' ∧ view s' = view s
  walk_neg : ∀ {env s path res}, fs.walk env s path = some (.error res) → res < 0
  stat_neg : ∀ {env s handle res}, fs.stat env s handle = some (.error res) → res < 0

/-- The driver's `truncate` refuses, too. -/
def RefusesTruncate (fs : Filesystem σ ε) (ro : σ → Prop) : Prop :=
  ∀ env s handle newSize, ro s → ∃ res < 0, fs.truncate env s handle newSize = some (res, s)

/-- What the call reads before it reaches an operation that changes the mount comes to
an end. -/
def ReadsEnd (fs : Filesystem σ ε) (env : ε) (s : MountFiles σ) : FileCall → Prop
  | .createFile _ | .createDirectory _ | .mknod _ _ _ | .ftruncate _ _ => True
  | .fdOpen path _ _ _ => (fs.statPath env s path).isSome ∧
      ∀ handle, fs.walk env s.fs path = some (.ok handle) →
        (optional env fs.openFile s.fs handle).isSome
  | .fdClose i => ∀ file, s.files[i]? = some file →
      (optional env fs.closeFile s.fs file.handle).isSome
  | .writeFile i _ _ => ∀ file, s.files[i]? = some file →
      (fs.stat env s.fs file.handle).isSome
  | .truncate path _ => (fs.walk env s.fs path).isSome
  | .removeFile path => (fs.statPath env s path).isSome ∧
      ∀ handle, fs.walk env s.fs path = some (.ok handle) →
        fs.stat env s.fs handle = some (.ok .dir) → (fs.hasEntry env s.fs handle).isSome
  | .renameFile oldPath newPath =>
      (fs.walk env s.fs oldPath).isSome ∧ (fs.walk env s.fs newPath).isSome

/-- The path at which the driver is to create a file fits its buffers. -/
def Fits (fs : Filesystem σ ε) (fits : List Char → Prop) (env : ε) (s : MountFiles σ) :
    FileCall → Prop
  | .createFile path | .createDirectory path => fits path
  | .fdOpen path created flags _ =>
      flags.creat = true → (∃ res, fs.statPath env s path = some (.error res)) → fits created
  | _ => True

/-- `fd_open` gets to an existing file of some type. -/
def Opens (fs : Filesystem σ ε) (env : ε) (s : MountFiles σ) (path : List Char)
    (flags : OpenFlags) (room : FdRoom) (type : DirentType) : Prop :=
  fs.statPath env s path = some (.ok type) ∧ ¬ (flags.wronly ∧ flags.rdwr) ∧
    flags.excl = false ∧ (flags.directory = true → type = .dir) ∧
    room.fd = true ∧ room.description = true

/-- The call reaches the driver's `truncate`. -/
def Truncates (fs : Filesystem σ ε) (env : ε) (s : MountFiles σ) : FileCall → Prop
  | .ftruncate i _ => ∃ file, s.files[i]? = some file ∧ file.isDir = false
  | .truncate path _ => ∃ handle, fs.walk env s.fs path = some (.ok handle)
  | .fdOpen path _ flags room =>
      fs.Opens env s path flags room .file ∧ flags.trunc = true
  | _ => False

/-- `fd_open` with `O_CREAT`, and without `O_TRUNC`, gets to an existing file. -/
def OpensOnly (fs : Filesystem σ ε) (env : ε) (s : MountFiles σ) : FileCall → Prop
  | .fdOpen path _ flags room =>
      fs.Opens env s path flags room .file ∧ flags.creat = true ∧ flags.trunc = false
  | _ => False

/-- A call that asks for a change of a regular file or for a new name; `fd_open` does it
with `O_CREAT` or `O_TRUNC`. -/
def Changes (fs : Filesystem σ ε) (env : ε) (s : MountFiles σ) : FileCall → Prop
  | .fdClose _ => False
  | .fdOpen path _ flags _ => (flags.creat = true ∨ flags.trunc = true) ∧
      (fs.statPath env s path = some (.ok .file) ∨
        ∃ res, fs.statPath env s path = some (.error res))
  | _ => True

/-- The call comes back, leaves what the mount holds, and fails if it asks for a
change. -/
def Immutable (fs : Filesystem σ ε) (view : σ → α) (s : MountFiles σ) (action : ε × FileCall) :
    Prop :=
  ∃ res s', fs.call action.1 s action.2 = some (res, s') ∧ view s'.fs = view s.fs ∧
    (fs.Changes action.1 s action.2 → res < 0)

namespace Refuses

variable {fs : Filesystem σ ε} {ro : σ → Prop} {fits : List Char → Prop} {view : σ → α}
  {env : ε} {s : MountFiles σ}

/-- What a call has to leave behind. -/
def Left (ro : σ → Prop) (view : σ → α) (s : MountFiles σ) (fails : Prop)
    (result : Option (Int × MountFiles σ)) : Prop :=
  ∃ res s', result = some (res, s') ∧ ro s'.fs ∧ view s'.fs = view s.fs ∧ (fails → res < 0)

theorem left_refused {fails : Prop} {res : Int} (hro : ro s.fs) (hres : res < 0) :
    Left ro view s fails (some (res, s)) :=
  ⟨res, s, rfl, hro, rfl, fun _ => hres⟩

theorem left_answer {fails : Prop} {result : Option (Int × σ)} (hro : ro s.fs)
    (h : ∃ res < 0, result = some (res, s.fs)) : Left ro view s fails (s.answer result) := by
  obtain ⟨res, hres, rfl⟩ := h
  exact left_refused hro hres

theorem statPath_neg (h : fs.Refuses ro fits view) {path : List Char} {res : Int}
    (hstat : fs.statPath env s path = some (.error res)) : res < 0 := by
  obtain ⟨found, hwalk, hfound⟩ := Option.bind_eq_some_iff.mp hstat
  cases found with
  | error res' =>
      cases hfound
      exact h.walk_neg hwalk
  | ok handle => exact h.stat_neg hfound

theorem walk_of_statPath {path : List Char} {type : DirentType}
    (hstat : fs.statPath env s path = some (.ok type)) :
    ∃ handle, fs.walk env s.fs path = some (.ok handle) := by
  obtain ⟨found, hwalk, hfound⟩ := Option.bind_eq_some_iff.mp hstat
  cases found with
  | error res => cases hfound
  | ok handle => exact ⟨handle, hwalk⟩

/-- The end of `fd_open` for an existing file. -/
theorem openHandle (h : fs.Refuses ro fits view) (hro : ro s.fs) {path : List Char}
    {truncates isDir : Bool} {handle : Nat} {fails : Prop}
    (hwalk : fs.walk env s.fs path = some (.ok handle))
    (hopen : (optional env fs.openFile s.fs handle).isSome)
    (htruncates : truncates = true → fs.RefusesTruncate ro)
    (hfails : fails → truncates = true) :
    Left ro view s fails (fs.openHandle env s s.fs path truncates isDir) := by
  obtain ⟨⟨res, after⟩, hafter⟩ := Option.isSome_iff_exists.mp hopen
  obtain ⟨hro', hview⟩ := h.openFile hro hafter
  unfold Filesystem.openHandle
  rw [hwalk]
  simp only [Option.bind_eq_bind, Option.bind_some, hafter]
  by_cases hres : res < 0
  · rw [if_pos hres]
    exact ⟨res, _, rfl, hro', hview, fun _ => hres⟩
  · rw [if_neg hres]
    cases truncates with
    | false => exact ⟨0, _, rfl, hro', hview, fun hf => absurd (hfails hf) Bool.false_ne_true⟩
    | true =>
        obtain ⟨res', hres', htruncate⟩ := htruncates rfl env after handle 0 hro'
        simp only [if_true, htruncate, Option.bind_some, if_pos hres']
        exact ⟨res', _, rfl, hro', hview, fun _ => hres'⟩

theorem fdOpen (h : fs.Refuses ro fits view) (hro : ro s.fs) {path created : List Char}
    {flags : OpenFlags} {room : FdRoom}
    (hreads : fs.ReadsEnd env s (.fdOpen path created flags room))
    (hfits : fs.Fits fits env s (.fdOpen path created flags room))
    (htruncates : fs.Truncates env s (.fdOpen path created flags room) → fs.RefusesTruncate ro)
    (hopens : ¬ fs.OpensOnly env s (.fdOpen path created flags room)) :
    Left ro view s (fs.Changes env s (.fdOpen path created flags room))
      (fs.fdOpen env s path created flags room) := by
  obtain ⟨hstat, hopen⟩ := hreads
  obtain ⟨found, hfound⟩ := Option.isSome_iff_exists.mp hstat
  unfold Filesystem.fdOpen Filesystem.openStat
  by_cases haccess : flags.wronly = true ∧ flags.rdwr = true
  · rw [if_pos haccess]
    exact left_refused hro (by decide)
  rw [if_neg haccess, hfound]
  cases found with
  | error res =>
      have hres := h.statPath_neg hfound
      by_cases hcreat : flags.creat = true
      · obtain ⟨res', hres', hcreate⟩ : ∃ res < 0, fs.createFile env s.fs created =
            some (res, s.fs) := h.createFile hro (hfits hcreat ⟨res, hfound⟩)
        simp only [Option.bind_eq_bind, Option.bind_some, if_pos hcreat, hcreate, if_pos hres']
        exact left_refused hro hres'
      · simp only [Option.bind_eq_bind, Option.bind_some, if_neg hcreat, if_pos hres]
        exact left_refused hro hres
  | ok type =>
      simp only [Option.bind_eq_bind, Option.bind_some]
      cases hexcl : flags.excl with
      | true =>
          rw [if_pos rfl, if_pos (by decide)]
          exact left_refused hro (by decide)
      | false =>
          rw [if_neg Bool.false_ne_true, if_neg (Int.lt_irrefl 0)]
          by_cases hdir : flags.directory = true ∧ type ≠ .dir
          · rw [if_pos hdir]
            exact left_refused hro (by decide)
          rw [if_neg hdir]
          cases hfd : room.fd with
          | false => exact left_refused hro (by decide)
          | true =>
              rw [if_neg Bool.noConfusion]
              cases hdescription : room.description with
              | false => exact left_refused hro (by decide)
              | true =>
                  rw [if_neg Bool.noConfusion]
                  obtain ⟨handle, hwalk⟩ := walk_of_statPath hfound
                  have hgets : ∀ t, type = t → fs.Opens env s path flags room t := by
                    rintro t rfl
                    exact ⟨hfound, haccess, hexcl, fun hd => by_contra fun ht => hdir ⟨hd, ht⟩,
                      hfd, hdescription⟩
                  refine h.openHandle hro hwalk (hopen handle hwalk) (fun ht => ?_) ?_
                  · rw [Bool.and_eq_true, decide_eq_true_eq] at ht
                    exact htruncates ⟨hgets _ ht.2, ht.1⟩
                  · rintro ⟨hflags, hfile | ⟨res, herror⟩⟩
                    · have htype : type = .file := by
                        rw [hfound] at hfile
                        exact Except.ok.inj (Option.some.inj hfile)
                      cases htrunc : flags.trunc with
                      | true => simp [htype]
                      | false =>
                          rw [htrunc] at hflags
                          have hcreat := hflags.resolve_right Bool.false_ne_true
                          exact absurd ⟨hgets _ htype, hcreat, htrunc⟩ hopens
                    · rw [hfound] at herror
                      cases herror

theorem fdClose (h : fs.Refuses ro fits view) (hro : ro s.fs) {i : Nat}
    (hreads : fs.ReadsEnd env s (.fdClose i)) :
    Left ro view s False (fs.fdClose env s i) := by
  unfold Filesystem.fdClose
  cases hi : s.files[i]? with
  | none => exact left_refused hro (by decide)
  | some file =>
      obtain ⟨⟨res, after⟩, hafter⟩ := Option.isSome_iff_exists.mp (hreads file hi)
      obtain ⟨hro', hview⟩ := h.closeFile hro hafter
      simp only [Option.bind_eq_bind, hafter, Option.bind_some]
      split
      · exact ⟨res, _, rfl, hro', hview, False.elim⟩
      · exact ⟨0, _, rfl, hro', hview, False.elim⟩

theorem writeFile (h : fs.Refuses ro fits view) (hro : ro s.fs) {fails : Prop} {i offset : Nat}
    {buffer : List UInt8} (hreads : fs.ReadsEnd env s (.writeFile i buffer offset)) :
    Left ro view s fails (fs.writeFile env s i buffer offset) := by
  unfold Filesystem.writeFile
  cases hi : s.files[i]? with
  | none => exact left_refused hro (by decide)
  | some file =>
      obtain ⟨found, hfound⟩ := Option.isSome_iff_exists.mp (hreads file hi)
      simp only [Option.bind_eq_bind, hfound, Option.bind_some]
      cases found with
      | error res => exact left_refused hro (by decide)
      | ok type =>
          dsimp only
          split
          · exact left_refused hro (by decide)
          · exact left_answer hro (h.write hro)

theorem ftruncate (hro : ro s.fs) {fails : Prop} {i newSize : Nat}
    (htruncates : fs.Truncates env s (.ftruncate i newSize) → fs.RefusesTruncate ro) :
    Left ro view s fails (fs.ftruncate env s i newSize) := by
  unfold Filesystem.ftruncate
  cases hi : s.files[i]? with
  | none => exact left_refused hro (by decide)
  | some file =>
      cases hdir : file.isDir with
      | true =>
          simp only [hdir, if_true]
          exact left_refused hro (by decide)
      | false =>
          simp only [hdir, Bool.false_eq_true, if_false]
          exact left_answer hro (htruncates ⟨file, hi, hdir⟩ env s.fs file.handle newSize hro)

theorem truncatePath (h : fs.Refuses ro fits view) (hro : ro s.fs) {fails : Prop}
    {path : List Char} {newSize : Nat} (hreads : fs.ReadsEnd env s (.truncate path newSize))
    (htruncates : fs.Truncates env s (.truncate path newSize) → fs.RefusesTruncate ro) :
    Left ro view s fails (fs.truncatePath env s path newSize) := by
  obtain ⟨found, hfound⟩ := Option.isSome_iff_exists.mp hreads
  unfold Filesystem.truncatePath
  rw [hfound]
  cases found with
  | error res => exact left_refused hro (h.walk_neg hfound)
  | ok handle =>
      exact left_answer hro (htruncates ⟨handle, hfound⟩ env s.fs handle newSize hro)

theorem removeFile (h : fs.Refuses ro fits view) (hro : ro s.fs) {fails : Prop}
    {path : List Char} (hreads : fs.ReadsEnd env s (.removeFile path)) :
    Left ro view s fails (fs.removeFile env s path) := by
  obtain ⟨hstat, hentry⟩ := hreads
  unfold Filesystem.removeFile
  cases hwalk : fs.walk env s.fs path with
  | none => simp [statPath, hwalk] at hstat
  | some found =>
      cases found with
      | error res => exact left_refused hro (h.walk_neg hwalk)
      | ok handle =>
          simp only [statPath, hwalk, Option.bind_eq_bind, Option.bind_some] at hstat ⊢
          obtain ⟨found, hfound⟩ := Option.isSome_iff_exists.mp hstat
          by_cases hroot : path = []
          · rw [if_pos hroot]
            exact left_refused hro (by decide)
          rw [if_neg hroot, hfound, Option.bind_some]
          cases found with
          | error res => exact left_refused hro (h.stat_neg hfound)
          | ok type =>
              dsimp only
              by_cases hdir : type = .dir
              · obtain ⟨more, hmore⟩ :=
                  Option.isSome_iff_exists.mp (hentry handle hwalk (hdir ▸ hfound))
                rw [if_pos hdir, hmore, Option.bind_some]
                cases more with
                | true => exact left_refused hro (by decide)
                | false => exact left_answer hro (h.remove hro)
              · rw [if_neg hdir]
                exact left_answer hro (h.remove hro)

theorem renameFile (h : fs.Refuses ro fits view) (hro : ro s.fs) {fails : Prop}
    {oldPath newPath : List Char} (hreads : fs.ReadsEnd env s (.renameFile oldPath newPath)) :
    Left ro view s fails (fs.renameFile env s oldPath newPath) := by
  obtain ⟨hold, hnew⟩ := hreads
  obtain ⟨old, hold⟩ := Option.isSome_iff_exists.mp hold
  obtain ⟨new, hnew⟩ := Option.isSome_iff_exists.mp hnew
  unfold Filesystem.renameFile
  rw [hold, hnew]
  cases old with
  | error res => exact left_refused hro (h.walk_neg hold)
  | ok oldHandle =>
      cases new with
      | error res => exact left_refused hro (h.walk_neg hnew)
      | ok newHandle =>
          simp only [Option.bind_eq_bind, Option.bind_some]
          split
          · exact left_refused hro (by decide)
          · exact left_answer hro (h.rename hro)

theorem call (h : fs.Refuses ro fits view) (hro : ro s.fs) {op : FileCall}
    (hreads : fs.ReadsEnd env s op) (hfits : fs.Fits fits env s op)
    (htruncates : fs.Truncates env s op → fs.RefusesTruncate ro)
    (hopens : ¬ fs.OpensOnly env s op) :
    Left ro view s (fs.Changes env s op) (fs.call env s op) := by
  cases op with
  | createFile path => exact left_answer hro (h.createFile hro hfits)
  | createDirectory path => exact left_answer hro (h.createDirectory hro hfits)
  | mknod path type device =>
      unfold Filesystem.call
      cases hmknod : fs.mknod with
      | none => exact left_refused hro (by decide)
      | some mknod => exact left_answer hro (h.mknod hmknod hro)
  | fdOpen path created flags room => exact h.fdOpen hro hreads hfits htruncates hopens
  | fdClose i => exact h.fdClose hro hreads
  | writeFile i buffer offset => exact h.writeFile hro hreads
  | ftruncate i newSize => exact ftruncate hro htruncates
  | truncate path newSize => exact h.truncatePath hro hreads htruncates
  | removeFile path => exact h.removeFile hro hreads
  | renameFile oldPath newPath => exact h.renameFile hro hreads

/-- Each call of a run on a mount that must not change. -/
theorem run (h : fs.Refuses ro fits view) (hro : ro s.fs) {run : List (ε × FileCall)}
    (hrun : Along fs.step (fun s a => fs.ReadsEnd a.1 s a.2 ∧ fs.Fits fits a.1 s a.2 ∧
      (fs.Truncates a.1 s a.2 → fs.RefusesTruncate ro) ∧ ¬ fs.OpensOnly a.1 s a.2) s run) :
    Along fs.step (fs.Immutable view) s run := by
  refine Along.of_invariant (fun s => ro s.fs) ?_ hro hrun
  rintro s ⟨env, op⟩ hro ⟨hreads, hfits, htruncates, hopens⟩
  obtain ⟨res, s', hcall, hro', hview, hfails⟩ := h.call hro hreads hfits htruncates hopens
  have hstep : fs.step s (env, op) = s' := by
    rw [Filesystem.step, hcall]
    rfl
  exact ⟨⟨res, s', hcall, hview, hfails⟩, hstep ▸ hro'⟩

end Refuses

end Filesystem

end GlitchedOS
