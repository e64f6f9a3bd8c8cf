/-
`realpath` of the C library.  It keeps the path that it builds without a slash at the end,
but for the root itself; going back from the first name cuts off the slash of the root as
well, and then none comes in front of the path any more.
-/
import GlitchedOS.Vfs.Canonical

namespace GlitchedOS

/-- `PATH_MAX` of `_PDCLIB_realpath.c`. -/
def pathMax : Nat := 4096

/-- `errno` of a `realpath` that returns no string. -/
inductive RealpathError where
  | eInval
  | eNoent
  | eNametoolong
deriving Repr, DecidableEq

/-- The tokens that `strtok` finds between slashes. -/
def slashTokens (work : List Char) : List (List Char) :=
  (work.splitOn '/').filter (· ≠ [])

/-- The terminator is written over the last slash, if `strrchr` finds one. -/
def cutLastSlash (out : List Char) : List Char :=
  if '/' ∈ out then (out.rdropWhile (· ≠ '/')).dropLast else out

/-- One round of the loop of `realpath`. -/
def realpathStep (out component : List Char) : Except RealpathError (List Char) :=
  if component = ['.'] then .ok out
  else if component = ['.', '.'] then
    if 1 < out.length then .ok (cutLastSlash out) else .ok out
  else if pathMax < out.length + component.length + 2 then .error .eNametoolong
  else .ok ((if 1 < out.length then out ++ ['/'] else out) ++ component)

/-- `realpath`, when there is memory for its copy of the path and for the result; `cwd`
is what `getcwd` writes. -/
def realpath (cwd : List Char) (path : Option (List Char)) : Except RealpathError (List Char) :=
  match path with
  | none => .error .eInval
  | some [] => .error .eNoent
  | some path =>
    let work := if path.head? = some '/' then path else cwd ++ '/' :: path
    (slashTokens work).foldlM realpathStep ['/']

/-- A slash, and names with a slash between each two. -/
def joinNames (names : List (List Char)) : List Char :=
  '/' :: ['/'].intercalate names

/-- A component behind some names does not lead back from a single name to the root, and
when it is a name there is room for it, a slash and the terminator. -/
def KeepsRoot (names : List (List Char)) (c : List Char) : Prop :=
  if c = ['.'] then True
  else if c = ['.', '.'] then names.length ≠ 1
  else (joinNames names).length + c.length + 2 ≤ pathMax

instance (names : List (List Char)) (c : List Char) : Decidable (KeepsRoot names c) := by
  unfold KeepsRoot
  infer_instance

/-- So does each component of a path, behind the names of those before it. -/
def KeepsRootAlong (names : List (List Char)) : List (List Char) → Prop
  | [] => True
  | c :: rest => KeepsRoot names c ∧ KeepsRootAlong (normalStep names c) rest

theorem canonicalPath_joinNames (path : List Char) :
    canonicalPath path = joinNames (normalNames path) :=
  rfl

theorem mem_slashTokens {c work : List Char} (hc : c ∈ slashTokens work) : IsName c := by
  obtain ⟨hmem, hne⟩ := List.mem_filter.mp hc
  exact ⟨by simpa using hne, (splitOn_component work c hmem).1⟩

theorem foldl_slashTokens (path : List Char) :
    (slashTokens path).foldl normalStep [] = normalNames path := by
  rw [slashTokens, normalNames]
  generalize ([] : List (List Char)) = names
  induction path.splitOn '/' generalizing names with
  | nil => rfl
  | cons c comps ih =>
      by_cases hc : c = []
      · subst hc
        simpa [normalStep] using ih names
      · simpa [hc] using ih (normalStep names c)

theorem joinNames_eq {names : List (List Char)} (hne : names ≠ []) :
    joinNames names = renderPath names true :=
  intercalate_slash hne

theorem joinNames_append {names : List (List Char)} (name : List Char)
    (hnames : ∀ name ∈ names, IsKept name) :
    (if 1 < (joinNames names).length then joinNames names ++ ['/'] else joinNames names) ++ name =
      joinNames (names ++ [name]) := by
  have happend : names ++ [name] ≠ [] := List.concat_ne_nil name names
  rw [joinNames_eq happend, renderPath_append]
  cases names with
  | nil => rfl
  | cons first rest =>
      have hfirst : first ≠ [] := (hnames first List.mem_cons_self).1.1
      have hpos := List.length_pos_iff.mpr hfirst
      rw [joinNames_eq (List.cons_ne_nil first rest), renderPath_slash, if_pos]
      simp only [renderPath, List.flatMap_cons, List.length_append, List.length_cons]
      omega

theorem joinNames_slash (names : List (List Char)) : '/' ∈ joinNames names :=
  List.mem_cons_self

/-- The last name is cut off, together with the slash in front of it. -/
theorem cutLastSlash_joinNames {names : List (List Char)} {name : List Char}
    (hname : IsName name) :
    cutLastSlash (joinNames (names ++ [name])) = if names = [] then [] else joinNames names := by
  have hin : ∀ c ∈ name.reverse, decide (c ≠ '/') = true := by
    intro c hc
    have hother : c ≠ '/' := fun h => hname.2 (h ▸ List.mem_reverse.mp hc)
    simp [hother]
  have hcut : (joinNames (names ++ [name])).rdropWhile (· ≠ '/') = renderPath names false := by
    rw [joinNames_eq (List.concat_ne_nil name names), renderPath_append, renderPath_slash,
      List.rdropWhile, List.reverse_append, List.dropWhile_append_of_pos hin]
    simp
  rw [cutLastSlash, if_pos (joinNames_slash _), hcut, renderPath_slash, List.dropLast_concat]
  split
  · rename_i hnil
    simp [hnil, renderPath]
  · rename_i hne
    exact (joinNames_eq hne).symm

theorem joinNames_length {names : List (List Char)} (hnames : ∀ name ∈ names, IsKept name)
    (hne : names ≠ []) : 1 < (joinNames names).length := by
  cases names with
  | nil => exact absurd rfl hne
  | cons first rest =>
      have hpos := List.length_pos_iff.mpr (hnames first List.mem_cons_self).1.1
      rw [joinNames_eq hne]
      simp only [renderPath, List.flatMap_cons, List.length_append, List.length_cons]
      omega

/-- Going back from two names or more, or from the root, is right. -/
theorem realpathStep_dotDot {names : List (List Char)} (hnames : ∀ name ∈ names, IsKept name) :
    realpathStep (joinNames names) ['.', '.'] =
      .ok (if names.length = 1 then [] else joinNames names.dropLast) := by
  rw [realpathStep, if_neg (by decide), if_pos rfl]
  cases names using List.reverseRec with
  | nil => rfl
  | append_singleton names name =>
      have hname : IsKept name := hnames name (by simp)
      rw [if_pos (joinNames_length hnames (List.concat_ne_nil name names)),
        cutLastSlash_joinNames hname.1, List.dropLast_concat]
      simp

/-- A round with room and a way back makes the names into the next ones. -/
theorem realpathStep_keeps {names : List (List Char)} {c : List Char}
    (hnames : ∀ name ∈ names, IsKept name) (hc : IsName c) (hkeeps : KeepsRoot names c) :
    realpathStep (joinNames names) c = .ok (joinNames (normalStep names c)) := by
  rw [KeepsRoot] at hkeeps
  by_cases hdot : c = ['.']
  · subst hdot
    rfl
  by_cases hdotDot : c = ['.', '.']
  · subst hdotDot
    rw [if_neg (by decide), if_pos rfl] at hkeeps
    rw [realpathStep_dotDot hnames, if_neg hkeeps]
    rfl
  · rw [if_neg hdot, if_neg hdotDot] at hkeeps
    rw [realpathStep, if_neg hdot, if_neg hdotDot, if_neg (Nat.not_lt.mpr hkeeps),
      joinNames_append c hnames, normalStep, if_neg (not_or.mpr ⟨hc.1, hdot⟩), if_neg hdotDot]

/-- The result is an error, or has no slash in front. -/
def Rootless (result : Except RealpathError (List Char)) : Prop :=
  ∀ out, result = .ok out → out.head? ≠ some '/'

/-- A round without them ends with an error or loses the slash of the root. -/
theorem realpathStep_rootless {names : List (List Char)} {c : List Char}
    (hnames : ∀ name ∈ names, IsKept name) (hkeeps : ¬ KeepsRoot names c) :
    Rootless (realpathStep (joinNames names) c) := by
  rw [KeepsRoot] at hkeeps
  by_cases hdot : c = ['.']
  · rw [if_pos hdot] at hkeeps
    exact absurd trivial hkeeps
  by_cases hdotDot : c = ['.', '.']
  · subst hdotDot
    rw [if_neg (by decide), if_pos rfl] at hkeeps
    rw [realpathStep_dotDot hnames, if_pos (not_not.mp hkeeps)]
    rintro out hout
    obtain rfl := Except.ok.inj hout
    simp
  · rw [if_neg hdot, if_neg hdotDot] at hkeeps
    rw [realpathStep, if_neg hdot, if_neg hdotDot, if_pos (Nat.not_le.mp hkeeps)]
    rintro out hout
    cases hout

theorem cutLastSlash_prefix (out : List Char) : cutLastSlash out <+: out := by
  rw [cutLastSlash]
  split
  · exact (List.dropLast_prefix _).trans (List.rdropWhile_prefix _ _)
  · exact List.prefix_refl out

theorem realpathStep_stays_rootless {out c : List Char} (hout : out.head? ≠ some '/')
    (hc : IsName c) : Rootless (realpathStep out c) := by
  have hfirst : c.head? ≠ some '/' := fun h => hc.2 (List.mem_of_mem_head? h)
  rintro next hnext
  rw [realpathStep] at hnext
  split at hnext
  · obtain rfl := Except.ok.inj hnext
    exact hout
  split at hnext
  · split at hnext
    · obtain rfl := Except.ok.inj hnext
      obtain ⟨rest, hrest⟩ := cutLastSlash_prefix out
      intro hhead
      rw [← hrest, List.head?_append, hhead] at hout
      exact hout rfl
    · obtain rfl := Except.ok.inj hnext
      exact hout
  split at hnext
  · cases hnext
  · obtain rfl := Except.ok.inj hnext
    cases out with
    | nil => exact hfirst
    | cons d out =>
        split
        · exact hout
        · exact hout

theorem realpathLoop_rootless {out : List Char} {comps : List (List Char)}
    (hcomps : ∀ c ∈ comps, IsName c) (hout : out.head? ≠ some '/') :
    Rootless (comps.foldlM realpathStep out) := by
  induction comps generalizing out with
  | nil =>
      rintro result hresult
      obtain rfl := Except.ok.inj hresult
      exact hout
  | cons c comps ih =>
      rw [List.foldlM_cons]
      have hstep := realpathStep_stays_rootless hout (hcomps c List.mem_cons_self)
      cases hnext : realpathStep out c with
      | error err =>
          rintro result hresult
          cases hresult
      | ok next =>
          exact ih (fun d hd => hcomps d (List.mem_cons_of_mem c hd)) (hstep next hnext)

/-- The loop keeps the path canonical as long as each round does, and no longer. -/
theorem realpathLoop_iff {names comps : List (List Char)} (hnames : ∀ name ∈ names, IsKept name)
    (hcomps : ∀ c ∈ comps, IsName c) :
    comps.foldlM realpathStep (joinNames names) = .ok (joinNames (comps.foldl normalStep names)) ↔
      KeepsRootAlong names comps := by
  induction comps generalizing names with
  | nil => exact iff_of_true rfl trivial
  | cons c comps ih =>
      have hc : IsName c := hcomps c List.mem_cons_self
      have hothers : ∀ d ∈ comps, IsName d := fun d hd => hcomps d (List.mem_cons_of_mem c hd)
      rw [List.foldlM_cons, List.foldl_cons, KeepsRootAlong]
      by_cases hkeeps : KeepsRoot names c
      · rw [realpathStep_keeps hnames hc hkeeps, and_iff_right hkeeps]
        exact ih (normalStep_isKept hnames hc.2) hothers
      · refine iff_of_false (fun hresult => ?_) fun h => hkeeps h.1
        have hlost := realpathStep_rootless hnames hkeeps
        cases hnext : realpathStep (joinNames names) c with
        | error err =>
            rw [hnext] at hresult
            cases hresult
        | ok next =>
            rw [hnext] at hresult
            exact realpathLoop_rootless hothers (hlost next hnext) _ hresult rfl

/-- `realpath` gives the canonical path of an absolute path exactly when none of its
components leads back from a single name to the root or has too little room. -/
theorem realpath_canonical_iff (cwd path : List Char) (habsolute : path.head? = some '/') :
    realpath cwd (some path) = .ok (canonicalPath path) ↔ KeepsRootAlong [] (slashTokens path) := by
  have hwork : realpath cwd (some path) =
      (slashTokens path).foldlM realpathStep (joinNames []) := by
    cases path with
    | nil => cases habsolute
    | cons c path => simp only [realpath, habsolute, if_true]; rfl
  rw [hwork, canonicalPath_joinNames, ← foldl_slashTokens]
  exact realpathLoop_iff (fun name hname => absurd hname List.not_mem_nil) fun c => mem_slashTokens

theorem realpath_canonical_back :
    realpath [] (some "//a/./b/..".toList) = .ok (canonicalPath "//a/./b/..".toList) ↔
      KeepsRootAlong [] (slashTokens "//a/./b/..".toList) :=
  realpath_canonical_iff [] "//a/./b/..".toList rfl

/-- Going back from the first name leaves nothing, and no slash for the next one. -/
theorem realpath_loses_root :
    (canonicalPath "/a/../b".toList).length < pathMax ∧
      realpath [] (some "/a/..".toList) = .ok [] ∧
      realpath [] (some "/a/../b".toList) = .ok "b".toList ∧
      realpath [] (some "/a/../b".toList) ≠ .ok (canonicalPath "/a/../b".toList) := by
  decide

end GlitchedOS
