/-
The two ways to resolve a path on a FAT volume: `find_mountpoint` calls `fat_lookup` for
one component after the other, and `fat_get_dirent_ref` takes the path apart itself.  It
splits a component of more than twelve characters, of which `fat_lookup` takes the first
twelve; otherwise the two agree.
-/
import GlitchedOS.Fs.FatDelete

namespace GlitchedOS

/-! ### Paths -/

/-- The components of a path do not contain its separator. -/
structure IsComponent (name : List Char) : Prop where
  ne_nil : name ≠ []
  no_slash : '/' ∉ name

/-- The path with these components. -/
def pathOf (names : List (List Char)) : List Char := names.flatMap fun name => '/' :: name

def upperName (name : List Char) : List Char := name.map Char.toUpper

variable {name : List Char} {names : List (List Char)}

theorem pathOf_cons (name : List Char) (names : List (List Char)) :
    pathOf (name :: names) = '/' :: (name ++ pathOf names) :=
  List.flatMap_cons

theorem toUpper_ne_slash {c : Char} (hc : c ≠ '/') : c.toUpper ≠ '/' := by
  intro heq
  delta Char.toUpper at heq
  split at heq
  · rename_i hlower
    have hval := congrArg (fun d : Char => d.val.toNat) heq
    have hlo : 97 ≤ c.val.toNat := hlower.1
    have hhi : c.val.toNat ≤ 122 := hlower.2
    change (c.val + 4294967264).toNat = 47 at hval
    rw [UInt32.toNat_add] at hval
    change (c.val.toNat + 4294967264) % 2 ^ 32 = 47 at hval
    omega
  · exact hc heq

theorem IsComponent.upper (h : IsComponent name) : IsComponent (upperName name) where
  ne_nil hnil := h.ne_nil (List.map_eq_nil_iff.mp hnil)
  no_slash hmem := by
    obtain ⟨c, hc, heq⟩ := List.mem_map.mp hmem
    exact toUpper_ne_slash (fun hslash => h.no_slash (hslash ▸ hc)) heq

theorem IsComponent.getLast_ne (h : IsComponent name) (output : List Char) :
    (output ++ name).getLast? ≠ some '/' := by
  rw [List.getLast?_append_of_ne_nil output h.ne_nil]
  exact fun hlast => h.no_slash (List.mem_of_getLast? hlast)

theorem normalizeRounds_plain {s : List Char} (hs : '/' ∉ s) (output : List Char) :
    s.foldl normalizeRound output = output ++ upperName s := by
  induction s generalizing output with
  | nil => exact (List.append_nil output).symm
  | cons c rest ih =>
      rw [List.mem_cons, not_or] at hs
      rw [List.foldl_cons, normalizeRound, if_neg fun hboth => hs.1 hboth.1.symm, ih hs.2,
        List.append_assoc]
      rfl

theorem normalizeRounds_pathOf (hnames : ∀ name ∈ names, IsComponent name) {output : List Char}
    (hlast : output.getLast? ≠ some '/') :
    (pathOf names).foldl normalizeRound output = output ++ pathOf (names.map upperName) ∧
      (output ++ pathOf (names.map upperName)).getLast? ≠ some '/' := by
  induction names generalizing output with
  | nil =>
      rw [List.map_nil]
      exact ⟨(List.append_nil output).symm, by rwa [pathOf, List.flatMap_nil, List.append_nil]⟩
  | cons name rest ih =>
      obtain ⟨hname, hrest⟩ := List.forall_mem_cons.mp hnames
      have hupper := hname.upper
      obtain ⟨hrounds, hend⟩ := ih hrest (hupper.getLast_ne (output ++ ['/']))
      have hslash : normalizeRound output '/' = output ++ ['/'] := by
        rw [normalizeRound, if_neg fun hboth => hlast hboth.2]
        rfl
      have heq : output ++ pathOf ((name :: rest).map upperName) =
          output ++ ['/'] ++ upperName name ++ pathOf (rest.map upperName) := by
        rw [List.map_cons, pathOf_cons]
        simp
      rw [pathOf_cons, List.foldl_cons, hslash, List.foldl_append,
        normalizeRounds_plain hname.no_slash, hrounds, heq]
      exact ⟨rfl, hend⟩

theorem normalizeFatPath_component (hname : IsComponent name)
    (hnames : ∀ name ∈ names, IsComponent name) :
    normalizeFatPath (name ++ pathOf names) = upperName name ++ pathOf (names.map upperName) := by
  have hdrop : (name ++ pathOf names).dropWhile (· = '/') = name ++ pathOf names := by
    cases name with
    | nil => exact absurd rfl hname.ne_nil
    | cons c more =>
        have hslash : c ≠ '/' := fun heq => hname.no_slash (heq ▸ List.mem_cons_self)
        simp [hslash]
  obtain ⟨hrounds, hlast⟩ := normalizeRounds_pathOf hnames (hname.upper.getLast_ne [])
  have hsame : (name ++ pathOf names).foldl normalizeRound [] =
      upperName name ++ pathOf (names.map upperName) := by
    rw [List.foldl_append, normalizeRounds_plain hname.no_slash]
    exact hrounds
  rw [normalizeFatPath, hdrop, hsame]
  exact if_neg hlast

/-- Normalizing a path takes its first separator off, and leaves the others. -/
theorem normalizeFatPath_pathOf (hnames : ∀ name ∈ names, IsComponent name) :
    normalizeFatPath (pathOf names) = (pathOf (names.map upperName)).drop 1 := by
  cases names with
  | nil => rfl
  | cons name rest =>
      obtain ⟨hname, hrest⟩ := List.forall_mem_cons.mp hnames
      have hslash : normalizeFatPath ('/' :: (name ++ pathOf rest)) =
          normalizeFatPath (name ++ pathOf rest) := rfl
      rw [pathOf_cons, hslash, normalizeFatPath_component hname hrest, List.map_cons, pathOf_cons]
      rfl

theorem normalizeFatPath_name (hname : IsComponent name) :
    normalizeFatPath name = upperName name := by
  have hplain := normalizeFatPath_component hname (List.forall_mem_nil IsComponent)
  rwa [List.map_nil, pathOf, List.flatMap_nil, List.append_nil, List.append_nil] at hplain

/-! ### The next component -/

namespace FatData

theorem takeWhile_component (hname : '/' ∉ name) (names : List (List Char)) :
    (name ++ pathOf names).takeWhile (· ≠ '/') = name := by
  have hall : ∀ c ∈ name, decide (c ≠ '/') = true := fun c hc =>
    decide_eq_true fun heq => hname (heq ▸ hc)
  rw [List.takeWhile_append_of_pos hall]
  cases names with
  | nil => exact List.append_nil name
  | cons other rest =>
      rw [pathOf_cons]
      simp

theorem nextComponent_pathOf (hname : '/' ∉ name) (names : List (List Char)) :
    nextComponent (name ++ pathOf names) = name.take 12 := by
  rw [nextComponent, takeWhile_component hname]

/-- Behind a component of at most twelve characters is the next one. -/
theorem restOfPath_short (hname : '/' ∉ name) (hshort : name.length ≤ 12)
    (names : List (List Char)) :
    restOfPath (name ++ pathOf names) = (pathOf names).drop 1 := by
  rw [restOfPath, nextComponent_pathOf hname, List.take_of_length_le hshort, List.drop_left]
  cases names with
  | nil => rfl
  | cons other rest => rfl

/-- Behind the first twelve characters of a longer one are its other characters. -/
theorem restOfPath_long (hname : '/' ∉ name) (hlong : 12 < name.length) :
    restOfPath name = name.drop 12 ∧ name.drop 12 ≠ [] := by
  have hplain := nextComponent_pathOf hname []
  rw [pathOf, List.flatMap_nil, List.append_nil] at hplain
  have hdrop : name.drop (nextComponent name).length = name.drop 12 := by
    rw [hplain, List.length_take_of_le hlong.le]
  have hne : name.drop 12 ≠ [] := fun hnil => by
    have hlength := congrArg List.length hnil
    rw [List.length_drop, List.length_nil] at hlength
    omega
  refine ⟨?_, hne⟩
  rw [restOfPath, hdrop]
  split
  · rename_i rest heq
    exact absurd (List.mem_of_mem_drop (heq ▸ List.mem_cons_self)) hname
  · rfl

/-! ### The two resolutions -/

/-- `fat_lookup` for one component after the other, as `find_mountpoint` calls it. -/
def lookupNames (v : FatData) (fuel : Nat) (entry : Buffer) (junk : Nat → Buffer) :
    List (List Char) → Nat → Option (Except Int Nat)
  | [], handle => some (.ok handle)
  | name :: names, handle => do
    match ← v.lookup fuel entry junk name handle with
    | .error res => some (.error res)
    | .ok next => lookupNames v fuel entry junk names next

/-- Both resolutions fail, or both come to the same place. -/
def Alike : Option (Except Int Nat) → Option (Option DirentRef) → Prop
  | some (.error _), some none => True
  | some (.ok handle), some (some ref) => handle = ref.handle
  | _, _ => False

/-- The path is resolved alike, in both ways. -/
def ResolvesAlike (v : FatData) (entry : Buffer) (junk : Nat → Buffer)
    (names : List (List Char)) : Prop :=
  ∃ fuel, Alike (v.lookupNames fuel entry junk names 0) (v.getDirentRef fuel junk (pathOf names))

/-- What the searches look for in a directory, for a component of a path. -/
def searchName (name : List Char) : List Char := componentName ((upperName name).take 12)

/-- Each component of the path for which there is an entry has at most twelve characters. -/
def FoundShort (v : FatData) (junk : Nat → Buffer) : List (List Char) → DirentRef → Prop
  | [], _ => True
  | name :: names, ref => ref.dirent.isDirectory = true → ∀ found,
      v.Finds (searchName name) junk ref.cluster found →
        name.length ≤ 12 ∧ FoundShort v junk names found

/-- What `fat_lookup` answers for the result of its search. -/
def lookupAnswer : Option DirentRef → Except Int Nat
  | none => .error eNoent
  | some found => .ok found.handle

variable {v : FatData} {heads dirs : Set Nat} {entry : Buffer} {junk : Nat → Buffer}
  {ref found : DirentRef} {fuel : Nat}

theorem RefersTo.handle_eq {c i : Nat} (h : v.RefersTo ref (v.slotPlace c i)) :
    ref.handle = v.slotHandle c i := by
  have hplace := h.place
  have hoffset := h.offset
  rw [slotPlace, clusterPlace] at hplace
  rw [DirentRef.handle, slotHandle]
  omega

theorem RefersTo.place_unique {ref' : DirentRef} {a a' : Nat} (h : v.RefersTo ref a)
    (h' : v.RefersTo ref' a') : a = a' ↔ ref.handle = ref'.handle := by
  have hplace := h.place
  have hplace' := h'.place
  have hoffset := h.offset
  have hoffset' := h'.offset
  rw [DirentRef.handle, DirentRef.handle]
  omega

theorem rootRef_handle (v : FatData) : v.rootRef.handle = 0 := by
  simp [DirentRef.handle, rootRef]

theorem walkPath_search {path : List Char} (hdir : ref.dirent.isDirectory = true)
    (hpath : path ≠ []) {res : Option DirentRef}
    (hwalk : v.walkPath fuel junk path ref = some res) :
    v.search fuel (componentName (nextComponent path))
        (v.openCluster (junk ref.cluster) ref.cluster) = some none ∧ res = none ∨
      ∃ found, v.search fuel (componentName (nextComponent path))
          (v.openCluster (junk ref.cluster) ref.cluster) = some (some found) ∧
        v.walkPath fuel junk (restOfPath path) found = some res := by
  obtain ⟨c, chars, rfl⟩ := List.exists_cons_of_ne_nil hpath
  rw [walkPath_cons hdir] at hwalk
  split at hwalk
  · cases hwalk
  · rename_i hsearch
    exact .inl ⟨hsearch, (Option.some.inj hwalk).symm⟩
  · rename_i found hsearch
    exact .inr ⟨found, hsearch, hwalk⟩

theorem walkPath_file {path : List Char} (hfile : ref.dirent.isDirectory = false)
    (hpath : path ≠ []) : v.walkPath fuel junk path ref = some none := by
  obtain ⟨c, chars, rfl⟩ := List.exists_cons_of_ne_nil hpath
  rw [walkPath, if_pos hfile]

namespace FilesSound

/-- The entry of a reference is read from its place, as far as a walk goes by it. -/
theorem readDirent_named (hsound : FilesSound v heads dirs) (hnamed : v.Named dirs ref)
    (entry : Buffer) :
    (v.readDirent entry ref.handle).isDirectory = ref.dirent.isDirectory ∧
      (v.readDirent entry ref.handle).firstCluster = ref.cluster := by
  rcases hnamed with rfl | ⟨a, ⟨c, i, hc, hi, rfl⟩, hrefers, -⟩
  · have hroot := hsound.clusters _ (hsound.dirs_heads hsound.root) _
      (hsound.chains.onChain_head (hsound.dirs_heads hsound.root))
    have hlt := hsound.toSynced.lt_clusterChainEnd hroot
    rw [rootRef_handle, FatData.readDirent, if_pos rfl]
    refine ⟨rfl, ?_⟩
    rw [FatDirent.firstCluster, rootRef]
    dsimp only
    rw [clusterChainEnd] at hlt
    omega
  · rw [hrefers.handle_eq, hsound.readDirent hc hi, ← hrefers.dirent, hrefers.cluster]
    exact ⟨rfl, rfl⟩

theorem lookup_named (hsound : FilesSound v heads dirs) (hnamed : v.Named dirs ref)
    (hname : IsComponent name) (hfits : name.length < 512) :
    v.lookup fuel entry junk name ref.handle =
      if ref.dirent.isDirectory = false then some (.error eNotdir)
      else (v.search fuel (searchName name)
        (v.openCluster (junk ref.cluster) ref.cluster)).map lookupAnswer := by
  obtain ⟨hdirectory, hcluster⟩ := hsound.readDirent_named hnamed entry
  have hnormal := normalizeFatPath_name hname
  split
  · rename_i hdir
    rw [lookup]
    dsimp only
    rw [hdirectory, if_pos hdir]
  · rename_i hdir
    rw [lookup_directory entry name ref.handle (hdirectory.trans (by simpa using hdir))
      (by rw [hnormal, upperName, List.length_map]; exact hfits), hnormal, hcluster]
    refine congrArg (Option.map · _) (funext fun found => ?_)
    cases found <;> rfl

/-- Where no longer component is found, a walk and the lookups come to the same. -/
theorem alike_of_foundShort (hsound : FilesSound v heads dirs) (hnamed : v.Named dirs ref)
    (hnames : ∀ name ∈ names, IsComponent name ∧ name.length < 512)
    (hshort : v.FoundShort junk names ref) {res : Option DirentRef}
    (hwalk : v.walkPath fuel junk ((pathOf (names.map upperName)).drop 1) ref = some res) :
    Alike (v.lookupNames fuel entry junk names ref.handle) (some res) := by
  induction names generalizing ref with
  | nil =>
      rw [List.map_nil, pathOf, List.flatMap_nil, List.drop_nil, walkPath] at hwalk
      obtain rfl := Option.some.inj hwalk
      rfl
  | cons name rest ih =>
      obtain ⟨⟨hname, hfits⟩, hrest⟩ := List.forall_mem_cons.mp hnames
      have hupper := hname.upper
      have hpath : (pathOf ((name :: rest).map upperName)).drop 1 =
          upperName name ++ pathOf (rest.map upperName) := by
        rw [List.map_cons, pathOf_cons]
        rfl
      have hne : upperName name ++ pathOf (rest.map upperName) ≠ [] := fun hnil =>
        hupper.ne_nil (List.append_eq_nil_iff.mp hnil).1
      rw [hpath] at hwalk
      have hlookup : v.lookup fuel entry junk name ref.handle = _ :=
        hsound.lookup_named hnamed hname hfits
      rw [lookupNames, hlookup]
      cases hdir : ref.dirent.isDirectory with
      | false =>
          rw [walkPath_file hdir hne] at hwalk
          obtain rfl := Option.some.inj hwalk
          rw [if_pos rfl]
          trivial
      | true =>
          have hcomponent : nextComponent (upperName name ++ pathOf (rest.map upperName)) =
              (upperName name).take 12 := nextComponent_pathOf hupper.no_slash _
          rw [if_neg (by decide)]
          rcases walkPath_search hdir hne hwalk with ⟨hsearch, rfl⟩ | ⟨found, hsearch, hwalk⟩
          · rw [hcomponent] at hsearch
            rw [searchName, hsearch]
            trivial
          · rw [hcomponent] at hsearch
            obtain ⟨hlength, hshort⟩ := hshort hdir found ⟨fuel, hsearch⟩
            have hlength' : (upperName name).length ≤ 12 := by
              rwa [upperName, List.length_map]
            rw [restOfPath_short hupper.no_slash hlength'] at hwalk
            rw [searchName, hsearch]
            have hc := hsound.dirOn_of_named hnamed hdir
            exact ih (hsound.named_of_search hc hsearch) hrest hshort hwalk

end FilesSound

/-! ### Depths -/

/-- The reference is so many directories below the root. -/
inductive AtDepth (v : FatData) : Nat → DirentRef → Prop
  | root : AtDepth v 0 v.rootRef
  | entry {n c i : Nat} {ref found : DirentRef} (h : AtDepth v n ref)
      (hdir : ref.dirent.isDirectory = true) (hc : OnChain v.follow ref.cluster c)
      (hi : i < v.entryCount) (hrefers : v.RefersTo found (v.slotPlace c i))
      (howns : found.dirent.Owns) : AtDepth v (n + 1) found

variable {n m c c' i i' : Nat} {ref' : DirentRef}

namespace FilesSound

theorem dirOn_of_onChain (hsound : FilesSound v heads dirs) (hnamed : v.Named dirs ref)
    (hdir : ref.dirent.isDirectory = true) (hc : OnChain v.follow ref.cluster c) :
    v.DirOn dirs c := by
  obtain ⟨d, hd, honChain⟩ := hsound.dirOn_of_named hnamed hdir
  exact ⟨d, hd, honChain.trans hc⟩

theorem named_of_atDepth (hsound : FilesSound v heads dirs) (h : v.AtDepth n ref) :
    v.Named dirs ref := by
  induction h with
  | root => exact .inl rfl
  | entry _ hdir hc hi hrefers howns ih =>
      exact .inr ⟨_, ⟨_, _, hsound.dirOn_of_onChain ih hdir hc, hi, rfl⟩, hrefers, howns⟩

theorem slotPlace_cluster (hsound : FilesSound v heads dirs) (hc : v.DirOn dirs c)
    (hc' : v.DirOn dirs c') (hi : i < v.entryCount) (hi' : i' < v.entryCount)
    (heq : v.slotPlace c i = v.slotPlace c' i') : c = c' := by
  by_contra hne
  have hfits := hsound.toLayout.toValid.slot_fits hi
  have hfits' := hsound.toLayout.toValid.slot_fits hi'
  have happart := hsound.toLayout.clusters_apart (hsound.dirOn_isCluster hc)
    (hsound.dirOn_isCluster hc') hne
  rw [slotPlace, slotPlace, clusterPlace, clusterPlace] at heq
  omega

theorem handle_of_cluster (hsound : FilesSound v heads dirs) (hnamed : v.Named dirs ref)
    (hnamed' : v.Named dirs ref') (hdir : ref.dirent.isDirectory = true)
    (heq : ref.cluster = ref'.cluster) : ref.handle = ref'.handle := by
  have hcluster := hsound.dirOn_isCluster (hsound.dirOn_of_named hnamed hdir)
  rcases hnamed with rfl | ⟨a, ha, hrefers, howns⟩ <;>
    rcases hnamed' with rfl | ⟨a', ha', hrefers', howns'⟩
  · rfl
  · rw [hrefers'.cluster, hrefers'.dirent] at heq
    exact absurd heq.symm (hsound.not_root a' ha' (hrefers'.dirent ▸ howns'))
  · rw [hrefers.cluster, hrefers.dirent] at heq
    exact absurd heq (hsound.not_root a ha (hrefers.dirent ▸ howns))
  · refine (hrefers.place_unique hrefers').mp ?_
    rw [hrefers.cluster] at hcluster
    rw [hrefers.cluster, hrefers'.cluster, hrefers.dirent, hrefers'.dirent] at heq
    rw [hrefers.dirent] at hcluster howns
    rw [hrefers'.dirent] at howns'
    have htwo := hcluster.1
    exact hsound.apart a a' ha ha' howns howns' heq (by omega)

theorem depth_unique (hsound : FilesSound v heads dirs) (h : v.AtDepth n ref)
    (h' : v.AtDepth m ref') (heq : ref.handle = ref'.handle) : n = m := by
  have hbelow : ∀ {n c i : Nat} {ref found : DirentRef}, v.AtDepth n ref →
      ref.dirent.isDirectory = true → OnChain v.follow ref.cluster c → i < v.entryCount →
      v.RefersTo found (v.slotPlace c i) → found.handle ≠ v.rootRef.handle := by
    intro n c i ref found h hdir hc hi hrefers
    have hdirOn := hsound.dirOn_of_onChain (hsound.named_of_atDepth h) hdir hc
    rw [hrefers.handle_eq, rootRef_handle]
    exact (hsound.slotHandle hdirOn hi).2.2
  induction h generalizing m ref' with
  | root =>
      cases h' with
      | root => rfl
      | entry hparent hdir hc hi hrefers _ =>
          exact absurd heq.symm (hbelow hparent hdir hc hi hrefers)
  | entry hparent hdir hc hi hrefers _ ih =>
      cases h' with
      | root => exact absurd heq (hbelow hparent hdir hc hi hrefers)
      | entry hparent' hdir' hc' hi' hrefers' _ =>
          have hnamed := hsound.named_of_atDepth hparent
          have hnamed' := hsound.named_of_atDepth hparent'
          have hplace := (hrefers.place_unique hrefers').mpr heq
          have hcluster := hsound.slotPlace_cluster (hsound.dirOn_of_onChain hnamed hdir hc)
            (hsound.dirOn_of_onChain hnamed' hdir' hc') hi hi' hplace
          subst hcluster
          have hchain := hsound.chains.apart _
            (hsound.dirs_heads (hsound.mem_dirs_of_named hnamed hdir)) _
            (hsound.dirs_heads (hsound.mem_dirs_of_named hnamed' hdir')) _ hc hc'
          rw [ih hparent' (hsound.handle_of_cluster hnamed hnamed' hdir hchain)]

theorem atDepth_search (hsound : FilesSound v heads dirs) (h : v.AtDepth n ref)
    (hdir : ref.dirent.isDirectory = true)
    (hsearch : v.search fuel (componentName name)
      (v.openCluster (junk ref.cluster) ref.cluster) = some (some found)) :
    v.AtDepth (n + 1) found := by
  obtain ⟨d, i, honChain, hi, hrefers, huse, hfound⟩ :=
    hsound.search_onChain (hsound.dirOn_of_named (hsound.named_of_atDepth h) hdir) hsearch
  exact .entry h hdir honChain hi hrefers (FatDirent.owns_of_componentName huse hfound)

theorem atDepth_walkPath (hsound : FilesSound v heads dirs) {path : List Char}
    (h : v.AtDepth n ref) (hwalk : v.walkPath fuel junk path ref = some (some found)) :
    ∃ m, n ≤ m ∧ (path ≠ [] → n < m) ∧ v.AtDepth m found := by
  induction hlength : path.length using Nat.strongRecOn generalizing path ref n with
  | _ length ih =>
      cases path with
      | nil =>
          rw [walkPath] at hwalk
          obtain rfl := Option.some.inj (Option.some.inj hwalk)
          exact ⟨n, le_refl n, fun hne => absurd rfl hne, h⟩
      | cons c chars =>
          cases hdir : ref.dirent.isDirectory with
          | false =>
              rw [walkPath_file hdir (List.cons_ne_nil c chars)] at hwalk
              cases hwalk
          | true =>
              rcases walkPath_search hdir (List.cons_ne_nil c chars) hwalk with
                ⟨-, hnone⟩ | ⟨next, hsearch, hrest⟩
              · cases hnone
              · obtain ⟨m, hle, -, hm⟩ := ih _ (hlength ▸ restOfPath_lt c chars)
                  (hsound.atDepth_search h hdir hsearch) hrest rfl
                exact ⟨m, by omega, fun _ => by omega, hm⟩

/-- Behind a component that is found, both resolutions go on there. -/
theorem alike_rest (hsound : FilesSound v heads dirs) (hnamed : v.Named dirs ref)
    (hname : IsComponent name) (hfits : name.length < 512)
    (hdir : ref.dirent.isDirectory = true)
    (hfinds : v.Finds (searchName name) junk ref.cluster found)
    (halike : Alike (v.lookupNames fuel entry junk (name :: names) ref.handle)
      (v.walkPath fuel junk (upperName name ++ pathOf (names.map upperName)) ref)) :
    Alike (v.lookupNames fuel entry junk names found.handle)
      (v.walkPath fuel junk (restOfPath (upperName name ++ pathOf (names.map upperName)))
        found) := by
  have hupper := hname.upper
  have hne : upperName name ++ pathOf (names.map upperName) ≠ [] := fun hnil =>
    hupper.ne_nil (List.append_eq_nil_iff.mp hnil).1
  have hlookup : v.lookup fuel entry junk name ref.handle = _ :=
    hsound.lookup_named hnamed hname hfits
  rw [hdir, if_neg (by decide)] at hlookup
  rw [lookupNames, hlookup] at halike
  cases hsearch : v.search fuel (searchName name)
      (v.openCluster (junk ref.cluster) ref.cluster) with
  | none =>
      rw [hsearch] at halike
      exact halike.elim
  | some res =>
      obtain rfl : res = some found := Loop.Ends.unique ⟨fuel, hsearch⟩ hfinds
      obtain ⟨c, chars, hpath⟩ := List.exists_cons_of_ne_nil hne
      have hwalk : v.walkPath fuel junk (c :: chars) ref = _ := walkPath_cons hdir
      rw [← hpath, nextComponent_pathOf hupper.no_slash] at hwalk
      rw [hsearch, hwalk] at halike
      rw [searchName] at hsearch
      rw [hsearch] at halike
      exact halike

/-- Where all parts of the path are resolved alike, no longer component is found. -/
theorem foundShort_of_alike (hsound : FilesSound v heads dirs) (entry : Buffer)
    (h : v.AtDepth n ref)
    (hnames : ∀ name ∈ names, IsComponent name ∧ name.length < 512)
    (halike : ∀ before, before <+: names → ∃ fuel,
      Alike (v.lookupNames fuel entry junk before ref.handle)
        (v.walkPath fuel junk ((pathOf (before.map upperName)).drop 1) ref)) :
    v.FoundShort junk names ref := by
  induction names generalizing ref n with
  | nil => trivial
  | cons name rest ih =>
      intro hdir found hfinds
      obtain ⟨⟨hname, hfits⟩, hrest⟩ := List.forall_mem_cons.mp hnames
      have hnamed := hsound.named_of_atDepth h
      have hdeeper : v.AtDepth (n + 1) found := by
        obtain ⟨fuel, hsearch⟩ := hfinds
        exact hsound.atDepth_search h hdir hsearch
      have hstep : ∀ before, before <+: rest → ∃ fuel,
          Alike (v.lookupNames fuel entry junk before found.handle) (v.walkPath fuel junk
            (restOfPath (upperName name ++ pathOf (before.map upperName))) found) := by
        intro before hbefore
        obtain ⟨fuel, hboth⟩ := halike (name :: before) (List.prefix_cons_iff.mpr
          (.inr ⟨before, rfl, hbefore⟩))
        rw [List.map_cons, pathOf_cons] at hboth
        exact ⟨fuel, hsound.alike_rest hnamed hname hfits hdir hfinds hboth⟩
      have hupper := hname.upper
      have hlength : (upperName name).length = name.length := List.length_map _
      have hshort : name.length ≤ 12 := by
        by_contra hlong
        obtain ⟨fuel, hboth⟩ := hstep [] List.nil_prefix
        rw [List.map_nil, pathOf, List.flatMap_nil, List.append_nil] at hboth
        obtain ⟨hdrop, hne⟩ := restOfPath_long hupper.no_slash (by omega)
        rw [hdrop, lookupNames] at hboth
        cases hwalk : v.walkPath fuel junk ((upperName name).drop 12) found with
        | none =>
            rw [hwalk] at hboth
            exact hboth
        | some res =>
            rw [hwalk] at hboth
            cases res with
            | none => exact hboth
            | some last =>
                obtain ⟨m, -, hlt, hm⟩ := hsound.atDepth_walkPath hdeeper hwalk
                have hsame := hsound.depth_unique hdeeper hm hboth
                exact absurd hsame (hlt hne).ne
      refine ⟨hshort, ih hdeeper hrest fun before hbefore => ?_⟩
      obtain ⟨fuel, hboth⟩ := hstep before hbefore
      rw [restOfPath_short hupper.no_slash (by omega)] at hboth
      exact ⟨fuel, hboth⟩

end FilesSound

/-! ### Paths from the root -/

theorem FoundShort.of_prefix {before : List (List Char)} (h : v.FoundShort junk names ref)
    (hbefore : before <+: names) : v.FoundShort junk before ref := by
  induction names generalizing before ref with
  | nil =>
      rw [List.prefix_nil.mp hbefore]
      trivial
  | cons name rest ih =>
      rcases List.prefix_cons_iff.mp hbefore with rfl | ⟨more, rfl, hmore⟩
      · trivial
      · intro hdir found hfinds
        obtain ⟨hshort, hfound⟩ := h hdir found hfinds
        exact ⟨hshort, ih hfound hmore⟩

theorem length_normalizeFatPath (hnames : ∀ name ∈ names, IsComponent name) :
    (normalizeFatPath (pathOf names)).length = (pathOf names).length - 1 := by
  have hupper : ∀ names, (pathOf (names.map upperName)).length = (pathOf names).length := by
    intro names
    induction names with
    | nil => rfl
    | cons name rest ih =>
        rw [List.map_cons, pathOf_cons, pathOf_cons, List.length_cons, List.length_cons,
          List.length_append, List.length_append, ih, upperName, List.length_map]
  rw [normalizeFatPath_pathOf hnames, List.length_drop, hupper]

theorem length_lt_pathOf (hmem : name ∈ names) : name.length < (pathOf names).length := by
  induction names with
  | nil => cases hmem
  | cons other rest ih =>
      rw [pathOf_cons, List.length_cons, List.length_append]
      rcases List.mem_cons.mp hmem with rfl | hmem
      · omega
      · have hrest := ih hmem
        omega

theorem length_pathOf_le {before : List (List Char)} (hbefore : before <+: names) :
    (pathOf before).length ≤ (pathOf names).length := by
  obtain ⟨more, rfl⟩ := hbefore
  rw [pathOf, pathOf, List.flatMap_append, List.length_append]
  exact Nat.le_add_right _ _

/-- `fat_get_dirent_ref` for a path that fits its buffer. -/
theorem getDirentRef_pathOf (hnames : ∀ name ∈ names, IsComponent name)
    (hfits : (normalizeFatPath (pathOf names)).length < 512) :
    v.getDirentRef fuel junk (pathOf names) =
      v.walkPath fuel junk ((pathOf (names.map upperName)).drop 1) v.rootRef := by
  rw [getDirentRef, normalizeInto, if_pos hfits, normalizeFatPath_pathOf hnames]
  rfl

theorem Alike.second {first : Option (Except Int Nat)} {second : Option (Option DirentRef)}
    (h : Alike first second) : ∃ res, second = some res := by
  cases second with
  | some res => exact ⟨res, rfl⟩
  | none =>
      cases first with
      | none => exact h.elim
      | some answer => cases answer <;> exact h.elim

/-- On a volume whose files are sound, `find_mountpoint` and `fat_get_dirent_ref` resolve a
path and each part of it alike exactly when the path fits its buffer, and no component of
more than twelve characters is found by its first twelve. -/
theorem resolves_alike_iff (hv : ∃ heads dirs, FilesSound v heads dirs)
    (hnames : ∀ name ∈ names, IsComponent name) :
    (∀ before, before <+: names → v.ResolvesAlike entry junk before) ↔
      (normalizeFatPath (pathOf names)).length < 512 ∧ v.FoundShort junk names v.rootRef := by
  obtain ⟨heads, dirs, hsound⟩ := hv
  have hparts : ∀ before, before <+: names →
      (normalizeFatPath (pathOf names)).length < 512 → ∀ fuel,
      v.getDirentRef fuel junk (pathOf before) =
        v.walkPath fuel junk ((pathOf (before.map upperName)).drop 1) v.rootRef := by
    intro before hbefore hfits fuel
    have hcomponents : ∀ name ∈ before, IsComponent name := fun name hname =>
      hnames name (hbefore.subset hname)
    refine getDirentRef_pathOf hcomponents ?_
    have hle := length_pathOf_le hbefore
    rw [length_normalizeFatPath hnames] at hfits
    rw [length_normalizeFatPath hcomponents]
    omega
  have hlengths : (normalizeFatPath (pathOf names)).length < 512 →
      ∀ name ∈ names, IsComponent name ∧ name.length < 512 := by
    intro hfits name hname
    have hlt := length_lt_pathOf hname
    rw [length_normalizeFatPath hnames] at hfits
    exact ⟨hnames name hname, by omega⟩
  constructor
  · intro halike
    have hfits : (normalizeFatPath (pathOf names)).length < 512 := by
      obtain ⟨fuel, hall⟩ := halike names List.prefix_rfl
      obtain ⟨res, hres⟩ := hall.second
      obtain ⟨npath, hpath, -⟩ := Option.bind_eq_some_iff.mp hres
      rw [normalizeInto] at hpath
      split at hpath
      · assumption
      · cases hpath
    have hrooted : ∀ before, before <+: names → ∃ fuel,
        Alike (v.lookupNames fuel entry junk before v.rootRef.handle)
          (v.walkPath fuel junk ((pathOf (before.map upperName)).drop 1) v.rootRef) := by
      intro before hbefore
      obtain ⟨fuel, hboth⟩ := halike before hbefore
      rw [hparts before hbefore hfits] at hboth
      rw [rootRef_handle]
      exact ⟨fuel, hboth⟩
    exact ⟨hfits, hsound.foundShort_of_alike entry .root (hlengths hfits) hrooted⟩
  · rintro ⟨hfits, hshort⟩ before hbefore
    have hleads : v.PathLeads junk ((pathOf (before.map upperName)).drop 1) v.rootRef :=
      hsound.pathLeads (.inl rfl)
    obtain ⟨fuel, res, hwalk⟩ := hsound.toLayout.toValid.walkPath_ends_iff.mpr hleads
    refine ⟨fuel, ?_⟩
    have hcomponents : ∀ name ∈ before, IsComponent name ∧ name.length < 512 :=
      fun name hname => hlengths hfits name (hbefore.subset hname)
    have halike : Alike (v.lookupNames fuel entry junk before v.rootRef.handle) (some res) :=
      hsound.alike_of_foundShort (.inl rfl) hcomponents (hshort.of_prefix hbefore) hwalk
    rw [hparts before hbefore hfits, hwalk]
    rw [rootRef_handle] at halike
    exact halike

end FatData

open FatData

/-! ### A component of thirteen characters -/

theorem threeFilesVolume_sound :
    ∃ heads dirs, FilesSound threeFilesVolume heads dirs :=
  threeFilesVolume_wellFormed.sound

theorem resolves_alike_short :
    threeFilesVolume.ResolvesAlike (fun _ => 0) (zeroEnv 2).junk [['A']] := by
  have hnames : ∀ name ∈ [['A']], IsComponent name := by
    intro name hname
    obtain rfl := List.mem_singleton.mp hname
    exact ⟨by decide, by decide⟩
  exact (resolves_alike_iff threeFilesVolume_sound hnames).mpr
    ⟨by decide, fun _ _ _ => ⟨by decide, trivial⟩⟩ [['A']] List.prefix_rfl

/-- The name of a file of the volume, with another character behind twelve. -/
def thirteenCharacters : List Char := 'A' :: List.replicate 11 ' ' ++ ['B']

/-- `fat_lookup` finds the file, and `fat_get_dirent_ref` goes on to look for the last
character in it. -/
theorem long_component_splits :
    IsComponent thirteenCharacters ∧
      threeFilesVolume.lookupNames 2 (fun _ => 0) (zeroEnv 2).junk [thirteenCharacters] 0 =
        some (.ok (fileRef 0 'A' 0 0).handle) ∧
      threeFilesVolume.getDirentRef 2 (zeroEnv 2).junk (pathOf [thirteenCharacters]) =
        some none ∧
      ¬ threeFilesVolume.ResolvesAlike (fun _ => 0) (zeroEnv 2).junk [thirteenCharacters] := by
  obtain ⟨heads, dirs, hsound⟩ := threeFilesVolume_sound
  have hname : IsComponent thirteenCharacters := ⟨by decide, by decide⟩
  have hsearch : threeFilesVolume.search 2 (searchName thirteenCharacters)
      (threeFilesVolume.openCluster ((zeroEnv 2).junk 2) 2) =
        some (some (fileRef 0 'A' 0 0)) := by
    decide
  have hnames : ∀ name ∈ [thirteenCharacters], IsComponent name ∧ name.length < 512 := by
    intro name hmem
    obtain rfl := List.mem_singleton.mp hmem
    exact ⟨hname, by decide⟩
  have hlookup : threeFilesVolume.lookup 2 (fun _ => 0) (zeroEnv 2).junk thirteenCharacters
      threeFilesVolume.rootRef.handle = _ := hsound.lookup_named (.inl rfl) hname (by decide)
  rw [rootRef_isDirectory, if_neg (by decide), rootRef_handle] at hlookup
  have hpath : (pathOf ([thirteenCharacters].map upperName)).drop 1 =
      'A' :: (List.replicate 11 ' ' ++ ['B']) := by decide
  refine ⟨hname, ?_, ?_, fun ⟨fuel, halike⟩ => ?_⟩
  · have hanswer := congrArg (Option.map lookupAnswer) hsearch
    rw [lookupNames, hlookup]
    exact congrArg (Option.bind · _) hanswer
  · rw [getDirentRef_pathOf (fun name hmem => (hnames name hmem).1) (by decide), hpath,
      walkPath_cons (rootRef_isDirectory threeFilesVolume)]
    have hfirst : threeFilesVolume.search 2 (componentName (nextComponent
        ('A' :: (List.replicate 11 ' ' ++ ['B'])))) (threeFilesVolume.openCluster
          ((zeroEnv 2).junk threeFilesVolume.rootRef.cluster)
            threeFilesVolume.rootRef.cluster) = some (some (fileRef 0 'A' 0 0)) := hsearch
    rw [hfirst]
    exact walkPath_file rfl (by decide)
  · have hshort : threeFilesVolume.FoundShort (zeroEnv 2).junk [thirteenCharacters]
        threeFilesVolume.rootRef := by
      refine hsound.foundShort_of_alike (fun _ => 0) .root hnames fun before hbefore => ?_
      rcases List.prefix_cons_iff.mp hbefore with rfl | ⟨more, rfl, hmore⟩
      · refine ⟨0, ?_⟩
        rw [List.map_nil, pathOf, List.flatMap_nil, List.drop_nil, FatData.walkPath]
        rfl
      · obtain rfl := List.prefix_nil.mp hmore
        rw [getDirentRef_pathOf (fun name hmem => (hnames name hmem).1) (by decide)] at halike
        rw [rootRef_handle]
        exact ⟨fuel, halike⟩
    have hlength := (hshort (rootRef_isDirectory _) _ ⟨2, hsearch⟩).1
    exact absurd hlength (by decide)

end GlitchedOS
