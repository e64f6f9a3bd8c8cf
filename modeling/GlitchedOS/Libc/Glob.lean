/-
`glob`.  The walk goes through a pattern component by component.  A component without
wildcards is taken for the name of a file, and the others are compared with every name in
the directory.
-/
import GlitchedOS.Libc.Fnmatch
import Mathlib.Data.List.TakeWhile

namespace GlitchedOS

/-- The flags that the walk looks at. -/
structure GlobFlags where
  err : Bool
  mark : Bool
  noescape : Bool
  period : Bool
deriving DecidableEq, Repr

/-- The flags of the calls of `fnmatch`. -/
def GlobFlags.fnm (flags : GlobFlags) : FnmFlags where
  pathname := false
  noescape := flags.noescape
  period := !flags.period

def hasMagic : List Char → Bool
  | '\\' :: _ :: s => hasMagic s
  | c :: s => c == '*' || c == '?' || c == '[' || hasMagic s
  | [] => false

def joinPath (pre name : List Char) : List Char :=
  if pre ≠ [] ∧ pre.getLast? ≠ some '/' then pre ++ '/' :: name else pre ++ name

def dirPath (pre : List Char) : List Char := if pre = [] then ['.'] else pre

/-- A name that a directory may have an entry for, its own two names apart. -/
def ProperName (name : List Char) : Prop :=
  name ≠ [] ∧ '/' ∉ name ∧ name ≠ ['.'] ∧ name ≠ ['.', '.']

/-- A directory tree by what the calls of the walk see of it: the names in a directory that
can be opened, and whether a path that can be found is a directory.  A file system may find
a file under other names than those it lists. -/
structure DirTree where
  listing : List Char → Option (List (List Char))
  stat : List Char → Option Bool

namespace DirTree

variable (tree : DirTree) (flags : GlobFlags)

/-- `add_result`: the path that is added, if any. -/
def addResult (path : List Char) : List (List Char) :=
  match tree.stat path with
  | none => []
  | some isDir =>
    if flags.mark ∧ isDir ∧ path.getLast? ≠ some '/' then [path ++ ['/']] else [path]

/-- The loop over the names of a directory at the last component. -/
def matchNames (component pre : List Char) (names : List (List Char)) : List (List Char) :=
  names.flatMap fun name =>
    if fnmatch (some component) (some name) flags.fnm ≠ 0 then []
    else tree.addResult flags (joinPath pre name)

/-- `walk`: the paths that are added, and whether the walk was aborted.  The caller's
function is asked about a directory that cannot be opened. -/
def walk (errfunc : List Char → Bool) (pattern pre : List Char) : List (List Char) × Bool :=
  match pattern with
  | [] => (tree.addResult flags (dirPath pre), false)
  | x :: p =>
    let component := (x :: p).takeWhile (· != '/')
    match _hrest : (x :: p).dropWhile (· != '/') with
    | [] =>
      if !hasMagic component then (tree.addResult flags (joinPath pre component), false)
      else
        match tree.listing (dirPath pre) with
        | none => ([], errfunc (dirPath pre) || flags.err)
        | some names => (tree.matchNames flags component pre names, false)
    | _ :: rest =>
      let rest' := rest.dropWhile (· == '/')
      if !hasMagic component then
        let candidate := joinPath pre component
        if tree.stat candidate = some true then walk errfunc rest' candidate else ([], false)
      else
        match tree.listing (dirPath pre) with
        | none => ([], errfunc (dirPath pre) || flags.err)
        | some names =>
          names.foldl (fun found name =>
            if found.2 then found
            else if fnmatch (some component) (some name) flags.fnm ≠ 0 then found
            else if name = ['.'] ∨ name = ['.', '.'] then found
            else
              let candidate := joinPath pre name
              if tree.stat candidate = some true then
                let deeper := walk errfunc rest' candidate
                (found.1 ++ deeper.1, deeper.2)
              else found) ([], false)
termination_by pattern.length
decreasing_by
  all_goals
    have hslash := (List.dropWhile_sublist (l := x :: p) (· != '/')).length_le
    have hskip := (List.dropWhile_sublist (l := rest) (· == '/')).length_le
    rw [_hrest, List.length_cons] at hslash
    exact Nat.lt_of_le_of_lt hskip hslash

/-- What listing the directory would add for a component. -/
def listedPaths (component pre : List Char) : List (List Char) :=
  match tree.listing (dirPath pre) with
  | none => []
  | some names =>
    tree.matchNames flags component pre
      (names.filter fun name => name ≠ ['.'] ∧ name ≠ ['.', '.'])

/-- If there is a file under a name, the directory lists the name, and once. -/
def ListsOnce (pre name : List Char) : Prop :=
  tree.stat (joinPath pre name) = none ∨
    ∃ names, tree.listing (dirPath pre) = some names ∧ names.count name = 1

end DirTree

/-- `fnmatch` takes every character of the pattern for itself: nothing is escaped, and
there is no wildcard and no bracket expression. -/
def Verbatim (flags : FnmFlags) : List Char → Prop
  | [] => True
  | '?' :: _ => False
  | '*' :: _ => False
  | '[' :: p => (∀ negate items after, ¬ Bracket flags p negate items after) ∧ Verbatim flags p
  | '\\' :: p => (flags.noescape = true ∨ p = []) ∧ Verbatim flags p
  | _ :: p => Verbatim flags p

variable {flags : FnmFlags} {p s : List Char} {before : Option Char}

theorem verbatim_itself_iff {c : Char} (hc : ¬ Special c) :
    Verbatim flags (c :: p) ↔ Verbatim flags p := by
  rw [Verbatim.eq_def]
  split
  · simp_all
  · simp_all [Special]
  · simp_all [Special]
  · simp_all [Special]
  · simp_all [Special]
  · next h => rw [(List.cons.inj h).2]

theorem verbatim_backslash (hp : flags.noescape = true ∨ p = []) :
    escapedChar flags '\\' p = ('\\', p) :=
  itemChar_iff.mp (.plain _ _ fun _ => hp)

theorem fnm_verbatim_iff (hp : Verbatim flags p) : Fnm flags p before s ↔ s = p := by
  induction p generalizing before s with
  | nil =>
      constructor
      · intro h
        cases h
        rfl
      · rintro rfl
        exact .done before
  | cons c p ih =>
      by_cases hc : Special c
      · rcases hc with rfl | rfl | rfl | rfl
        · exact absurd hp id
        · exact absurd hp id
        · obtain ⟨hopen, hp⟩ := hp
          have hallowed : Allowed flags before '[' := allowed_of_ne (by decide) (by decide)
          rw [fnm_bracket_iff]
          constructor
          · rintro ⟨c, s', rfl, -, ⟨after, hmatch, -⟩ | ⟨-, rfl, hrest⟩⟩
            · rw [matchBracket_eq_none_iff.mpr hopen] at hmatch
              cases hmatch
            · rw [(ih hp).mp hrest]
          · rintro rfl
            exact ⟨_, _, rfl, hallowed,
              .inr ⟨matchBracket_eq_none_iff.mpr hopen, rfl, (ih hp).mpr rfl⟩⟩
        · obtain ⟨hplain, hp⟩ := hp
          rw [fnm_backslash_iff, verbatim_backslash hplain]
          simp [ih hp]
      · rw [fnm_itself_iff hc]
        simp [ih ((verbatim_itself_iff hc).mp hp)]

theorem allowed_behind (hpath : flags.pathname = false) (c d : Char) :
    Allowed flags (some d) c := by
  simp [Allowed, hpath]

/-- Without `FNM_PATHNAME` nothing is kept from being matched behind another character. -/
theorem Fnm.behind (hpath : flags.pathname = false) (h : Fnm flags p before s) (d : Char) :
    Fnm flags p (some d) s := by
  induction h with
  | done => exact .done _
  | one _ hrest => exact .one (allowed_behind hpath _ d) hrest
  | starNone _ ih => exact .starNone ih
  | starMore _ hrest => exact .starMore (allowed_behind hpath _ d) hrest
  | bracket hbracket _ hin hrest => exact .bracket hbracket (allowed_behind hpath _ d) hin hrest
  | unclosed hopen hrest => exact .unclosed hopen hrest
  | escaped hescape hrest => exact .escaped hescape hrest
  | backslash hplain hrest => exact .backslash hplain hrest
  | itself hc hrest => exact .itself hc hrest

/-- The pattern matches something else too, with a letter in it and no new slash. -/
def Varies (flags : FnmFlags) (p : List Char) (before : Option Char) (s : List Char) : Prop :=
  ∃ s', s' ≠ s ∧ Fnm flags p before s' ∧ ('a' ∈ s' ∨ 'b' ∈ s') ∧ ('/' ∉ s → '/' ∉ s')

/-- A wildcard for one character also stands for another letter. -/
theorem varies_one {c : Char} (hpath : flags.pathname = false)
    (hrest : Fnm flags p (some c) s) : Varies flags ('?' :: p) before (c :: s) := by
  by_cases hc : c = 'a'
  · subst hc
    refine ⟨'b' :: s, by simp, .one (allowed_of_ne (by decide) (by decide))
      (hrest.behind hpath 'b'), .inr List.mem_cons_self, ?_⟩
    simp
  · refine ⟨'a' :: s, fun h => hc (List.cons.inj h).1.symm,
      .one (allowed_of_ne (by decide) (by decide)) (hrest.behind hpath 'a'),
      .inl List.mem_cons_self, ?_⟩
    simp

theorem Fnm.varies_star (hpath : flags.pathname = false)
    (h : Fnm flags ('*' :: p) before s) : Varies flags ('*' :: p) before s := by
  refine ⟨'a' :: s, by simp, .starMore (allowed_of_ne (by decide) (by decide))
    (h.behind hpath 'a'), .inl List.mem_cons_self, ?_⟩
  simp

theorem Varies.cons {c : Char} {p' : List Char} (h : Varies flags p' (some c) s)
    (hcons : ∀ s', Fnm flags p' (some c) s' → Fnm flags p before (c :: s')) :
    Varies flags p before (c :: s) := by
  obtain ⟨s', hne, hmatch, hletter, hslash⟩ := h
  refine ⟨c :: s', fun h => hne (List.cons.inj h).2, hcons s' hmatch, ?_, ?_⟩
  · rcases hletter with ha | hb
    · exact .inl (List.mem_cons_of_mem c ha)
    · exact .inr (List.mem_cons_of_mem c hb)
  · simp only [List.mem_cons, not_or]
    rintro ⟨hc, hs⟩
    exact ⟨hc, hslash hs⟩

theorem not_verbatim_of_lt (h : Fnm flags p before s) (hlength : p.length < s.length) :
    ¬ Verbatim flags p := by
  intro hp
  rw [(fnm_verbatim_iff hp).mp h] at hlength
  exact Nat.lt_irrefl _ hlength

/-- A pattern that is no longer than what it matches, and does not stand for itself, has a
wildcard: escapes and bracket expressions are longer than what they match. -/
theorem Fnm.varies (hpath : flags.pathname = false) (h : Fnm flags p before s)
    (hlength : p.length ≤ s.length) (hp : ¬ Verbatim flags p) : Varies flags p before s := by
  induction h with
  | done before => exact absurd trivial hp
  | one hc hrest ih => exact varies_one hpath hrest
  | starNone hrest ih => exact (Fnm.starNone hrest).varies_star hpath
  | starMore hc hrest ih => exact (Fnm.starMore hc hrest).varies_star hpath
  | bracket hbracket hc hin hrest ih =>
      have hafter := matchBracket_length (matchBracket_iff.mpr
        ⟨_, _, hbracket, iff_of_true rfl hin⟩)
      simp only [List.length_cons] at hlength
      exact (ih (by omega) (not_verbatim_of_lt hrest (by omega))).cons
        fun s' h => .bracket hbracket hc hin h
  | unclosed hopen hrest ih =>
      exact (ih (Nat.le_of_succ_le_succ hlength) fun hrest => hp ⟨hopen, hrest⟩).cons
        fun s' h => .unclosed hopen h
  | escaped hescape hrest ih =>
      simp only [List.length_cons] at hlength
      exact (ih (by omega) (not_verbatim_of_lt hrest (by omega))).cons
        fun s' h => .escaped hescape h
  | backslash hplain hrest ih =>
      exact (ih (Nat.le_of_succ_le_succ hlength) fun hrest => hp ⟨hplain, hrest⟩).cons
        fun s' h => .backslash hplain h
  | itself hc hrest ih =>
      exact (ih (Nat.le_of_succ_le_succ hlength)
        fun hrest => hp ((verbatim_itself_iff hc).mpr hrest)).cons fun s' h => .itself hc h

namespace DirTree

variable {tree : DirTree} {glob : GlobFlags} {component pre : List Char}

theorem takeWhile_component (hslash : '/' ∉ component) :
    component.takeWhile (· != '/') = component ∧ component.dropWhile (· != '/') = [] := by
  have hall : ∀ c ∈ component, (c != '/') = true := by
    intro c hc
    exact bne_iff_ne.mpr fun h => hslash (h ▸ hc)
  exact ⟨List.takeWhile_eq_self_iff.mpr hall, List.dropWhile_eq_nil_iff.mpr hall⟩

/-- The literal branch of the walk. -/
theorem walk_literal (errfunc : List Char → Bool) (hcomponent : ProperName component)
    (hmagic : hasMagic component = false) :
    tree.walk glob errfunc component pre =
      (tree.addResult glob (joinPath pre component), false) := by
  obtain ⟨hne, hslash, -⟩ := hcomponent
  obtain ⟨htake, hdrop⟩ := takeWhile_component hslash
  obtain ⟨x, p, rfl⟩ := List.exists_cons_of_ne_nil hne
  rw [walk]
  split
  · simp [htake, hmagic]
  · next hrest =>
      rw [hdrop] at hrest
      cases hrest

/-- Where the component matches one name only, the listing adds what is found under that
one, as often as it stands there. -/
theorem matchNames_eq {name : List Char} (names : List (List Char))
    (honly : ∀ n, fnmatch (some component) (some n) glob.fnm = 0 ↔ n = name) :
    tree.matchNames glob component pre names =
      (List.replicate (names.count name)
        (tree.addResult glob (joinPath pre name))).flatten := by
  induction names with
  | nil => rfl
  | cons n names ih =>
      unfold matchNames at ih ⊢
      rw [List.flatMap_cons, ih, List.count_cons]
      by_cases heq : n = name
      · subst heq
        rw [if_neg (not_not.mpr ((honly n).mpr rfl)), if_pos (beq_self_eq_true n),
          List.replicate_succ, List.flatten_cons]
      · rw [if_pos (fun h => heq ((honly n).mp h)), if_neg (fun h => heq (beq_iff_eq.mp h)),
          List.nil_append, Nat.add_zero]

/-- A component that stands for itself: both ways add the same exactly where the directory
lists once what is found. -/
theorem addResult_eq_listedPaths_iff (hcomponent : ProperName component)
    (hverbatim : Verbatim glob.fnm component) :
    tree.addResult glob (joinPath pre component) = tree.listedPaths glob component pre ↔
      tree.ListsOnce pre component := by
  have honly : ∀ n, fnmatch (some component) (some n) glob.fnm = 0 ↔ n = component :=
    fun n => (fnmatch_some component n glob.fnm).trans
      ((matchHere_iff component none n).trans (fnm_verbatim_iff hverbatim))
  have hcount : ∀ names : List (List Char),
      (names.filter fun n => n ≠ ['.'] ∧ n ≠ ['.', '.']).count component =
        names.count component :=
    fun names => List.count_filter (by simpa using hcomponent.2.2)
  unfold ListsOnce listedPaths addResult
  cases hstat : tree.stat (joinPath pre component) with
  | none =>
      refine iff_of_true ?_ (.inl rfl)
      cases tree.listing (dirPath pre) with
      | none => rfl
      | some names =>
          dsimp only
          rw [matchNames_eq _ honly, addResult, hstat]
          simp
  | some isDir =>
      obtain ⟨path, hpath⟩ : ∃ path, tree.addResult glob (joinPath pre component) = [path] := by
        rw [addResult, hstat]
        dsimp only
        split <;> exact ⟨_, rfl⟩
      rw [addResult, hstat] at hpath
      cases hlisting : tree.listing (dirPath pre) with
      | none => simp [hpath]
      | some names =>
          dsimp only at hpath ⊢
          rw [matchNames_eq _ honly, hcount, addResult, hstat]
          dsimp only
          rw [hpath]
          constructor
          · intro heq
            rw [List.flatten_replicate_singleton] at heq
            have hlength := congrArg List.length heq
            rw [List.length_replicate] at hlength
            exact .inr ⟨names, rfl, hlength.symm⟩
          · rintro (h | ⟨names', h, hone⟩)
            · cases h
            · obtain rfl := Option.some.inj h
              rw [hone]
              rfl

/-- A directory with one file, as the working directory. -/
def single (name : List Char) : DirTree where
  listing dir := if dir = ['.'] then some [name] else none
  stat path := if path = name then some false else none

theorem listsOnce_single (name : List Char) : (single name).ListsOnce [] component := by
  by_cases heq : component = name
  · exact .inr ⟨[name], rfl, by rw [heq, List.count_singleton_self]⟩
  · exact .inl (if_neg heq)

theorem addResult_single {name path : List Char} :
    (single name).addResult glob (joinPath [] path) =
      if path = name then [path] else [] := by
  have hjoin : joinPath [] path = path := rfl
  rw [addResult, hjoin]
  by_cases heq : path = name
  · simp [single, heq]
  · simp [single, heq]

theorem listedPaths_single {name : List Char} (hname : ProperName name) :
    (single name).listedPaths glob component [] =
      if fnmatch (some component) (some name) glob.fnm = 0 then [name] else [] := by
  have hlisting : (single name).listing (dirPath []) = some [name] := rfl
  have hdots : [name].filter (fun n => n ≠ ['.'] ∧ n ≠ ['.', '.']) = [name] := by
    simpa using hname.2.2
  rw [listedPaths, hlisting]
  dsimp only
  rw [hdots, matchNames, List.flatMap_cons, List.flatMap_nil, List.append_nil,
    addResult_single, if_pos rfl]
  by_cases hmatch : fnmatch (some component) (some name) glob.fnm = 0
  · rw [if_neg (not_not.mpr hmatch), if_pos hmatch]
  · rw [if_pos hmatch, if_neg hmatch]

/-- A directory with a file whose name is not the component and is matched by it, or is the
component and is not matched by it. -/
theorem single_differs {name : List Char} (errfunc : List Char → Bool)
    (hcomponent : ProperName component) (hmagic : hasMagic component = false)
    (hname : ProperName name)
    (hdiffers : name = component ↔ ¬ Fnm glob.fnm component none name) :
    ((single name).walk glob errfunc component []).1 ≠
      (single name).listedPaths glob component [] := by
  rw [← matchHere_iff, ← fnmatch_some] at hdiffers
  rw [walk_literal errfunc hcomponent hmagic, addResult_single, listedPaths_single hname]
  by_cases heq : name = component
  · rw [if_pos heq.symm, if_neg (hdiffers.mp heq)]
    simp
  · rw [if_neg (Ne.symm heq), if_pos (not_not.mp (mt hdiffers.mpr heq))]
    simp

/-- A component that does not stand for itself: there is a directory where the two ways
differ. -/
theorem exists_differs (errfunc : List Char → Bool) (hcomponent : ProperName component)
    (hmagic : hasMagic component = false) (hverbatim : ¬ Verbatim glob.fnm component) :
    ∃ tree : DirTree, tree.ListsOnce [] component ∧
      (tree.walk glob errfunc component []).1 ≠ tree.listedPaths glob component [] := by
  by_cases hself : Fnm glob.fnm component none component
  · obtain ⟨name, hne, hmatch, hletter, hslash⟩ :=
      hself.varies rfl (Nat.le_refl _) hverbatim
    have hname : ProperName name := by
      refine ⟨?_, hslash hcomponent.2.1, ?_, ?_⟩
      · rintro rfl
        simp at hletter
      · rintro rfl
        simp at hletter
      · rintro rfl
        simp at hletter
    exact ⟨single name, listsOnce_single name,
      single_differs errfunc hcomponent hmagic hname
        (iff_of_false hne (not_not.mpr hmatch))⟩
  · exact ⟨single component, listsOnce_single component,
      single_differs errfunc hcomponent hmagic hcomponent (iff_of_true rfl hself)⟩

end DirTree

/-- The literal branch adds what listing the directory would add exactly for the components
that `fnmatch` takes for themselves, in a directory that lists once what is found in it. -/
theorem glob_literal_iff (flags : GlobFlags) (errfunc : List Char → Bool)
    (component : List Char) (hcomponent : ProperName component)
    (hmagic : hasMagic component = false) :
    ((∀ (tree : DirTree) (pre : List Char), tree.ListsOnce pre component →
        (tree.walk flags errfunc component pre).1 = tree.listedPaths flags component pre) ↔
      Verbatim flags.fnm component) ∧
    (Verbatim flags.fnm component → ∀ (tree : DirTree) (pre : List Char),
      (tree.walk flags errfunc component pre).1 = tree.listedPaths flags component pre ↔
        tree.ListsOnce pre component) := by
  have hexact : Verbatim flags.fnm component → ∀ (tree : DirTree) (pre : List Char),
      (tree.walk flags errfunc component pre).1 = tree.listedPaths flags component pre ↔
        tree.ListsOnce pre component := by
    intro hverbatim tree pre
    rw [DirTree.walk_literal errfunc hcomponent hmagic]
    exact DirTree.addResult_eq_listedPaths_iff hcomponent hverbatim
  refine ⟨⟨fun hsame => ?_, fun hverbatim tree pre => (hexact hverbatim tree pre).mpr⟩, hexact⟩
  by_contra hverbatim
  obtain ⟨tree, hlists, hdiffers⟩ := DirTree.exists_differs errfunc hcomponent hmagic hverbatim
  exact hdiffers (hsame tree [] hlists)

def plainGlob : GlobFlags := ⟨false, false, false, false⟩

/-- A directory that lists a file in capitals and finds it in small letters too. -/
def capitalFile : DirTree where
  listing dir := if dir = ['.'] then some [['A']] else none
  stat path := if path = ['A'] ∨ path = ['a'] then some false else none

/-- The name of a file as it is listed, and as it is only found. -/
theorem glob_literal_name :
    (capitalFile.walk plainGlob (fun _ => false) ['A'] []).1 =
        capitalFile.listedPaths plainGlob ['A'] [] ∧
      (capitalFile.walk plainGlob (fun _ => false) ['a'] []).1 ≠
        capitalFile.listedPaths plainGlob ['a'] [] := by
  constructor
  · exact ((glob_literal_iff plainGlob (fun _ => false) ['A'] (by unfold ProperName; decide)
      (by decide)).2 trivial capitalFile []).mpr (.inr ⟨[['A']], rfl, by decide⟩)
  · rw [ne_eq, (glob_literal_iff plainGlob (fun _ => false) ['a']
      (by unfold ProperName; decide) (by decide)).2 trivial capitalFile []]
    rintro (h | ⟨names, h, hone⟩)
    · cases h
    · obtain rfl := Option.some.inj h
      exact absurd hone (by decide)

/-- The file with the name of a star, and the pattern that escapes the star. -/
def starFile : DirTree := .single ['*']

/-- The literal branch looks for a file with a backslash in its name. -/
theorem glob_escaped_star :
    hasMagic ['\\', '*'] = false ∧
      (starFile.walk plainGlob (fun _ => false) ['\\', '*'] []).1 = [] ∧
      starFile.listedPaths plainGlob ['\\', '*'] [] = [['*']] := by
  have hcomponent : ProperName ['\\', '*'] := by
    unfold ProperName
    decide
  have hname : ProperName ['*'] := by
    unfold ProperName
    decide
  have hmatch : Fnm plainGlob.fnm ['\\', '*'] none ['*'] := .escaped rfl (.done _)
  refine ⟨by decide, ?_, ?_⟩
  · rw [DirTree.walk_literal _ hcomponent (by decide), starFile, DirTree.addResult_single]
    rfl
  · rw [← matchHere_iff, ← fnmatch_some] at hmatch
    rw [starFile, DirTree.listedPaths_single hname, if_pos hmatch]

end GlitchedOS
