/-
How `find_mountpoint` and `ramfs_get_dirent` take a path apart.  Both copy a component
into the array `subdir`, which has 256 characters, and look it up; the copying stops when
the array is full, so that a longer component becomes two names, and the terminator is
written behind the array.
-/
import GlitchedOS.Vfs.MountRoots
import GlitchedOS.Vfs.Canonical
import GlitchedOS.Fs.RamfsTree

namespace GlitchedOS

/-- A character written to `subdir`, or a name looked up. -/
inductive WalkEvent where
  | written (i : Nat)
  | lookup (name : List Char)
deriving Repr, DecidableEq

/-- A component is written with a terminator, and looked up. -/
def componentEvents (subdir : List Char) : List WalkEvent :=
  (List.range (subdir.length + 1)).map .written ++ [.lookup subdir]

section Walks

variable {σ : Type} (visit : σ → List Char → Option (Except Int σ))

/-- The loop over the characters of a path, which goes on behind a component that does
not fit; `visit` is the lookup of a name. -/
def splitWalk (path : List Char) (at_ : σ) : List WalkEvent × Option (Except Int σ) :=
  match path with
  | [] => ([], some (.ok at_))
  | c :: more =>
    if _hc : c = '/' then splitWalk more at_
    else
      let subdir := ((c :: more).takeWhile (· ≠ '/')).take 256
      match visit at_ subdir with
      | none => (componentEvents subdir, none)
      | some (.error res) => (componentEvents subdir, some (.error res))
      | some (.ok next) =>
        let walk := splitWalk ((c :: more).drop subdir.length) next
        (componentEvents subdir ++ walk.1, walk.2)
termination_by path.length
decreasing_by
  · exact Nat.lt_succ_self _
  · exact drop_component_lt _hc more

/-- The lookup of `find_mountpoint`. -/
def mountVisit (env : WalkEnv) (fuel : Nat) (v : MountTable) (at_ : FileHandle)
    (name : List Char) : Option (Except Int FileHandle) :=
  match env.lookup at_.mountpoint at_.handle (String.ofList name) with
  | .error res => some (.error res)
  | .ok handle => (crossMount env fuel v at_.mountpoint handle).map .ok

/-- `find_mountpoint` on a resolved path. -/
def findMountpointWalk (env : WalkEnv) (fuel : Nat) (v : MountTable) (path : List Char) :
    List WalkEvent × Option (Except Int FileHandle) :=
  splitWalk (mountVisit env fuel v) path ⟨v.root, env.getRoot v.root⟩

/-- The search of `ramfs_get_dirent` for a name. -/
def direntVisit (s : Ramfs) (at_ : Nat) (name : List Char) : Option (Except Int Nat) := do
  let dirent ← s.get at_
  if dirent.type ≠ .dir then some (.error eNoent)
  else match ← s.findChild name s.live.card dirent.child with
  | none => some (.error eNoent)
  | some p => some (.ok p)

/-- `ramfs_get_dirent` -/
def getDirentWalk (s : Ramfs) (path : List Char) : List WalkEvent × Option (Except Int Nat) :=
  splitWalk (direntVisit s) path s.root

end Walks

/-- The names that are looked up, in order. -/
def lookups (events : List WalkEvent) : List (List Char) :=
  events.filterMap fun
    | .written _ => none
    | .lookup name => some name

/-- A walk stays in `subdir`, looks up the names of the path in order and each of them
whole, all of them unless it fails, and fails when one is too long. -/
structure SplitsWell {σ : Type} (names : List (List Char))
    (walk : List WalkEvent × Option (Except Int σ)) : Prop where
  inBuffer : ∀ i, .written i ∈ walk.1 → i < 256
  inOrder : lookups walk.1 <+: names
  whole : ∀ found, walk.2 = some (.ok found) → lookups walk.1 = names
  tooLong : (∃ name ∈ names, 256 ≤ name.length) → ∃ res < 0, walk.2 = some (.error res)

/-- Both walks take the path apart well, whatever they meet. -/
def WalksWell (path : List Char) : Prop :=
  (∀ env fuel v, SplitsWell (pathNames path) (findMountpointWalk env fuel v path)) ∧
    ∀ s, SplitsWell (pathNames path) (getDirentWalk s path)

/-- Each name and its terminator have room in `subdir`. -/
def ShortNames (path : List Char) : Prop := ∀ name ∈ pathNames path, name.length < 256

theorem pathNames_slash (more : List Char) : pathNames ('/' :: more) = pathNames more :=
  pathNames_append [] more

theorem pathNames_name_append {name tail : List Char} (hname : IsName name)
    (htail : tail = [] ∨ ∃ more, tail = '/' :: more) :
    pathNames (name ++ tail) = name :: pathNames tail := by
  rcases htail with rfl | ⟨more, rfl⟩
  · rw [List.append_nil, pathNames_name hname]
    rfl
  · rw [pathNames_append, pathNames_name hname, pathNames_slash]
    rfl

/-- A path, from the end on: slashes and names are put in front. -/
theorem path_induction {P : List Char → Prop} (hnil : P [])
    (hslash : ∀ more, P more → P ('/' :: more))
    (hname : ∀ name tail, IsName name → (tail = [] ∨ ∃ more, tail = '/' :: more) → P tail →
      P (name ++ tail)) (path : List Char) : P path := by
  induction hn : path.length using Nat.strong_induction_on generalizing path with
  | _ n ih =>
      rcases path_cases path with rfl | ⟨more, rfl⟩ | ⟨name, tail, hisName, htail, rfl⟩
      · exact hnil
      · exact hslash more (ih more.length (by simp at hn; omega) more rfl)
      · have hpos := List.length_pos_iff.mpr hisName.1
        exact hname name tail hisName htail (ih tail.length (by simp at hn; omega) tail rfl)

section Rounds

variable {σ : Type} {visit : σ → List Char → Option (Except Int σ)}

theorem splitWalk_slash (more : List Char) (at_ : σ) :
    splitWalk visit ('/' :: more) at_ = splitWalk visit more at_ := by
  rw [splitWalk, dif_pos rfl]

/-- The round for a component: what does not fit is left for the next round. -/
theorem splitWalk_name {name tail : List Char} (hname : IsName name)
    (htail : tail = [] ∨ ∃ more, tail = '/' :: more) (at_ : σ) :
    splitWalk visit (name ++ tail) at_ =
      match visit at_ (name.take 256) with
      | none => (componentEvents (name.take 256), none)
      | some (.error res) => (componentEvents (name.take 256), some (.error res))
      | some (.ok next) =>
        (componentEvents (name.take 256) ++ (splitWalk visit (name.drop 256 ++ tail) next).1,
          (splitWalk visit (name.drop 256 ++ tail) next).2) := by
  have hcomponent := takeWhile_name hname htail
  have hrest : (name ++ tail).drop (name.take 256).length = name.drop 256 ++ tail := by
    rw [List.length_take]
    by_cases hlong : 256 ≤ name.length
    · rw [Nat.min_eq_left hlong, List.drop_append_of_le_length hlong]
    · rw [Nat.min_eq_right (by omega), List.drop_left, List.drop_eq_nil_of_le (by omega),
        List.nil_append]
  cases name with
  | nil => exact absurd rfl hname.1
  | cons c cs =>
      have hc : c ≠ '/' := fun h => hname.2 (h ▸ List.mem_cons_self)
      rw [List.cons_append] at hcomponent hrest ⊢
      rw [splitWalk, dif_neg hc]
      simp only [hcomponent, hrest]

theorem splitWalk_short {name tail : List Char} (hname : IsName name)
    (htail : tail = [] ∨ ∃ more, tail = '/' :: more) (hshort : name.length < 256) (at_ : σ) :
    splitWalk visit (name ++ tail) at_ =
      match visit at_ name with
      | none => (componentEvents name, none)
      | some (.error res) => (componentEvents name, some (.error res))
      | some (.ok next) => (componentEvents name ++ (splitWalk visit tail next).1,
          (splitWalk visit tail next).2) := by
  rw [splitWalk_name hname htail, List.take_of_length_le (by omega),
    List.drop_eq_nil_of_le (by omega), List.nil_append]

end Rounds

@[simp] theorem written_mem_componentEvents {i : Nat} {name : List Char} :
    .written i ∈ componentEvents name ↔ i ≤ name.length := by
  rw [← Nat.lt_succ_iff]
  simp [componentEvents]

@[simp] theorem lookups_componentEvents (name : List Char) :
    lookups (componentEvents name) = [name] := by
  simp [lookups, componentEvents, List.filterMap_append, List.filterMap_map]

@[simp] theorem lookups_append (events more : List WalkEvent) :
    lookups (events ++ more) = lookups events ++ lookups more :=
  List.filterMap_append

theorem ShortNames.name {name tail : List Char} (hname : IsName name)
    (htail : tail = [] ∨ ∃ more, tail = '/' :: more) :
    ShortNames (name ++ tail) ↔ name.length < 256 ∧ ShortNames tail := by
  rw [ShortNames, pathNames_name_append hname htail, List.forall_mem_cons, ShortNames]

theorem ShortNames.slash {more : List Char} : ShortNames ('/' :: more) ↔ ShortNames more := by
  rw [ShortNames, pathNames_slash, ShortNames]

section Walks

variable {σ : Type} {visit : σ → List Char → Option (Except Int σ)}

/-- Short names are taken out of the path one by one. -/
theorem splitsWell_of_short {path : List Char} (hshort : ShortNames path) (at_ : σ) :
    SplitsWell (pathNames path) (splitWalk visit path at_) := by
  have hfits : (∃ name ∈ pathNames path, 256 ≤ name.length) →
      ∃ res < 0, (splitWalk visit path at_).2 = some (.error res) := by
    rintro ⟨name, hmem, hlong⟩
    exact absurd (hshort name hmem) (Nat.not_lt.mpr hlong)
  suffices h : (∀ i, .written i ∈ (splitWalk visit path at_).1 → i < 256) ∧
      lookups (splitWalk visit path at_).1 <+: pathNames path ∧
      ∀ found, (splitWalk visit path at_).2 = some (.ok found) →
        lookups (splitWalk visit path at_).1 = pathNames path from ⟨h.1, h.2.1, h.2.2, hfits⟩
  clear hfits
  induction path using path_induction generalizing at_ with
  | hnil => simp [splitWalk, lookups, pathNames]
  | hslash more ih =>
      rw [splitWalk_slash, pathNames_slash]
      exact ih (ShortNames.slash.mp hshort) at_
  | hname name tail hname htail ih =>
      obtain ⟨hfits, hrest⟩ := (ShortNames.name hname htail).mp hshort
      rw [splitWalk_short hname htail hfits, pathNames_name_append hname htail]
      have hbounds : ∀ i ≤ name.length, i < 256 := fun i hi => Nat.lt_of_le_of_lt hi hfits
      cases hvisit : visit at_ name with
      | none => simpa using hbounds
      | some res =>
          cases res with
          | error res => simpa using hbounds
          | ok next =>
              obtain ⟨hin, horder, hwhole⟩ := ih hrest next
              refine ⟨fun i hi => ?_, ?_, fun found hfound => ?_⟩
              · rcases List.mem_append.mp hi with hi | hi
                · exact hbounds i (written_mem_componentEvents.mp hi)
                · exact hin i hi
              · simpa using horder
              · simpa using hwhole found hfound

end Walks

/-- For short names this is the walk that the rest of the development knows. -/
theorem walkLoop_eq_splitWalk {env : WalkEnv} {fuel : Nat} {v : MountTable} {path : List Char}
    (hshort : ShortNames path) (at_ : FileHandle) (remaining : List Char) :
    (walkLoop env fuel v path at_ remaining).map (Except.map Prod.fst) =
      (splitWalk (mountVisit env fuel v) path at_).2 := by
  induction path using path_induction generalizing at_ remaining with
  | hnil => simp [walkLoop, splitWalk, Except.map]
  | hslash more ih =>
      rw [walkLoop, dif_pos rfl, splitWalk_slash]
      exact ih (ShortNames.slash.mp hshort) at_ remaining
  | hname name tail hname htail ih =>
      obtain ⟨hfits, hrest⟩ := (ShortNames.name hname htail).mp hshort
      rw [walkLoop_name hname htail, if_neg (Nat.not_le.mpr hfits),
        splitWalk_short hname htail hfits, mountVisit]
      cases hlookup : env.lookup at_.mountpoint at_.handle (String.ofList name) with
      | error res => rfl
      | ok handle =>
          simp only [crossMount_eq]
          cases hcover : coveringChild v fuel at_.mountpoint handle with
          | none => rfl
          | some found =>
              cases found with
              | none => exact ih hrest _ _
              | some m => exact ih hrest _ _

theorem walkNames_eq_splitWalk {s : Ramfs} {path : List Char} (hshort : ShortNames path)
    (at_ : Nat) :
    s.walkNames eNoent (pathNames path) at_ = (splitWalk (direntVisit s) path at_).2 := by
  induction path using path_induction generalizing at_ with
  | hnil => simp [Ramfs.walkNames, splitWalk, pathNames]
  | hslash more ih =>
      rw [pathNames_slash, splitWalk_slash]
      exact ih (ShortNames.slash.mp hshort) at_
  | hname name tail hname htail ih =>
      obtain ⟨hfits, hrest⟩ := (ShortNames.name hname htail).mp hshort
      rw [pathNames_name_append hname htail, Ramfs.walkNames, if_neg (Nat.not_le.mpr hfits),
        splitWalk_short hname htail hfits, direntVisit]
      cases hdirent : s.get at_ with
      | none => rfl
      | some dirent =>
          by_cases hdir : dirent.type = .dir
          · cases hfound : s.findChild name s.live.card dirent.child with
            | none => simp [hdir, hfound]
            | some found =>
                cases found with
                | none => simp [hdir, hfound]
                | some p => simpa [hdir, hfound] using ih hrest p
          · simp [hdir]

/-- The root file system is alone, and has every name. -/
def everyName : WalkEnv where
  getRoot _ := 0
  lookup _ _ _ := .ok 0
  lookup_neg h := nomatch h

theorem findMountpointWalk_everyName (path : List Char) :
    ∃ found, (findMountpointWalk everyName 0 onlyRoot path).2 = some (.ok found) := by
  have hvisit : ∀ at_ name, at_.mountpoint = 0 →
      mountVisit everyName 0 onlyRoot at_ name = some (.ok ⟨0, 0⟩) := by
    rintro ⟨m, handle⟩ name rfl
    rfl
  have hgeneral : ∀ (n : Nat) (path : List Char), path.length = n → ∀ at_ : FileHandle,
      at_.mountpoint = 0 →
        ∃ found, (splitWalk (mountVisit everyName 0 onlyRoot) path at_).2 = some (.ok found) := by
    intro n
    induction n using Nat.strong_induction_on with
    | _ n ih =>
        intro path hn at_ hat
        rcases path_cases path with rfl | ⟨more, rfl⟩ | ⟨name, tail, hname, htail, rfl⟩
        · exact ⟨at_, by rw [splitWalk]⟩
        · rw [splitWalk_slash]
          exact ih more.length (by simp at hn; omega) more rfl at_ hat
        · have hpos := List.length_pos_iff.mpr hname.1
          rw [splitWalk_name hname htail, hvisit at_ _ hat]
          exact ih _ (by simp at hn ⊢; omega) (name.drop 256 ++ tail) rfl ⟨0, 0⟩ rfl
  exact hgeneral _ path rfl _ rfl

/-- The walks take a path apart well exactly when its names are short. -/
theorem walks_split_well_iff (path : List Char) : WalksWell path ↔ ShortNames path := by
  constructor
  · rintro ⟨hmount, -⟩ name hmem
    by_contra hlong
    obtain ⟨found, hfound⟩ := findMountpointWalk_everyName path
    obtain ⟨res, -, herror⟩ := (hmount everyName 0 onlyRoot).tooLong
      ⟨name, hmem, Nat.not_lt.mp hlong⟩
    cases hfound.symm.trans herror
  · intro hshort
    exact ⟨fun env fuel v => splitsWell_of_short hshort _, fun s => splitsWell_of_short hshort _⟩

theorem resolvePath_name {name : List Char} (hname : IsKept name)
    (hfits : name.length < maxPath - 1) : resolvePath ('/' :: name) = '/' :: name := by
  have hsplit : ('/' :: name).splitOn '/' = [] :: [name] := by
    rw [splitOn_slash, List.splitOn_eq_singleton hname.1.2]
  have hroom : ('/' :: name).length ≤ maxPath - 1 := hfits
  rw [resolvePath_eq rfl hroom, normalNames, hsplit, List.foldl_cons, plainAfter,
    if_pos (.inl rfl)]
  have hkept : ∀ other ∈ [name], IsKept other := by simpa using hname
  rw [plainAfter_kept hkept (by simp)]
  have hnames := foldl_normalStep [] hkept
  simpa [normalStep, renderPath] using congrArg (renderPath · true) hnames

/-- A name of 257 characters is looked up as two, and the array is written behind its end. -/
theorem long_name_splits :
    resolvePath ('/' :: List.replicate 257 'a') = '/' :: List.replicate 257 'a' ∧
      lookups (findMountpointWalk everyName 0 onlyRoot ('/' :: List.replicate 257 'a')).1 =
        [List.replicate 256 'a', ['a']] ∧
      .written 256 ∈ (findMountpointWalk everyName 0 onlyRoot
        ('/' :: List.replicate 257 'a')).1 ∧
      ¬ WalksWell ('/' :: List.replicate 257 'a') := by
  have hname : IsName (List.replicate 257 'a') := by
    refine ⟨fun h => ?_, fun h => absurd (List.eq_of_mem_replicate h) (by decide)⟩
    exact absurd (congrArg List.length h) (by rw [List.length_replicate]; decide)
  have hrest : IsName ['a'] := by simp [IsName]
  have htake : (List.replicate 257 'a').take 256 = List.replicate 256 'a' := List.take_replicate
  have hdrop : (List.replicate 257 'a').drop 256 = ['a'] := List.drop_replicate
  have hvisit : ∀ name, mountVisit everyName 0 onlyRoot ⟨0, 0⟩ name = some (.ok ⟨0, 0⟩) :=
    fun name => rfl
  -- two rounds of the loop
  have hwalk : (findMountpointWalk everyName 0 onlyRoot ('/' :: List.replicate 257 'a')).1 =
      componentEvents (List.replicate 256 'a') ++ componentEvents ['a'] := by
    rw [findMountpointWalk, splitWalk_slash, ← List.append_nil (List.replicate 257 'a'),
      splitWalk_name hname (.inl rfl), htake, hdrop]
    change componentEvents _ ++ (splitWalk _ (['a'] ++ []) (⟨0, 0⟩ : FileHandle)).1 = _
    rw [splitWalk_short hrest (.inl rfl) (by decide), hvisit]
    simp only [splitWalk, List.append_nil]
  have hlong : ¬ WalksWell ('/' :: List.replicate 257 'a') := by
    rintro ⟨hmount, -⟩
    have hbound := (hmount everyName 0 onlyRoot).inBuffer 256
    rw [hwalk] at hbound
    exact absurd (hbound (List.mem_append_left _ (written_mem_componentEvents.mpr
      List.length_replicate.ge))) (lt_irrefl 256)
  refine ⟨resolvePath_name ⟨hname, ?_, ?_⟩ ?_, ?_, ?_, hlong⟩
  · exact fun h => absurd (congrArg List.length h) (by rw [List.length_replicate]; decide)
  · exact fun h => absurd (congrArg List.length h) (by rw [List.length_replicate]; decide)
  · rw [List.length_replicate]
    decide
  · rw [hwalk, lookups_append, lookups_componentEvents, lookups_componentEvents]
    rfl
  · rw [hwalk]
    exact List.mem_append_left _ (written_mem_componentEvents.mpr List.length_replicate.ge)

end GlitchedOS
