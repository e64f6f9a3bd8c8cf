/-
Canonical paths.  `resolve_path` keeps the names of a path, but leaves a slash behind
them when the path does not end with a name; then two spellings of one path differ, and
resolving once more takes the slash away.
-/
import GlitchedOS.Vfs.Path

namespace GlitchedOS

/-- A slash, and the names along the path with a slash between each two. -/
def canonicalPath (path : List Char) : List Char :=
  '/' :: ['/'].intercalate (normalNames path)

/-- A path that the buffers hold, from the root on. -/
def IsAbsolute (path : List Char) : Prop :=
  path.head? = some '/' ∧ path.length < maxPath

/-- The path is one of the root, or ends with a name. -/
def CanonicalEnd (path : List Char) : Prop :=
  normalNames path = [] ∨ PlainEnd path

instance (path : List Char) : Decidable (IsAbsolute path) :=
  inferInstanceAs (Decidable (_ ∧ _))

instance (path : List Char) : Decidable (CanonicalEnd path) :=
  inferInstanceAs (Decidable (_ ∨ _))

/-- The path is resolved to its canonical path, resolving that changes nothing, and
neither does another spelling. -/
structure ResolvesCanonically (path : List Char) : Prop where
  canonical : resolvePath path = canonicalPath path
  again : resolvePath (resolvePath path) = resolvePath path
  spelling : ∀ other, IsAbsolute other → CanonicalEnd other →
    normalNames other = normalNames path → resolvePath other = resolvePath path

/-- A name that a path keeps. -/
def IsKept (name : List Char) : Prop := IsName name ∧ name ≠ ['.'] ∧ name ≠ ['.', '.']

theorem normalStep_isKept {names : List (List Char)} (hnames : ∀ name ∈ names, IsKept name)
    {c : List Char} (hc : '/' ∉ c) : ∀ name ∈ normalStep names c, IsKept name := by
  intro name hname
  rw [normalStep] at hname
  split at hname
  · exact hnames name hname
  next hskip =>
    rw [not_or] at hskip
    split at hname
    · exact hnames name (List.dropLast_subset names hname)
    next hback =>
      rcases List.mem_append.mp hname with hname | hname
      · exact hnames name hname
      · obtain rfl := List.mem_singleton.mp hname
        exact ⟨⟨hskip.1, hc⟩, hskip.2, hback⟩

theorem normalNames_isKept (path : List Char) : ∀ name ∈ normalNames path, IsKept name := by
  have hslash : ∀ c ∈ path.splitOn '/', '/' ∉ c := fun c hc => (splitOn_component path c hc).1
  rw [normalNames]
  generalize path.splitOn '/' = comps at hslash ⊢
  induction comps using List.reverseRec with
  | nil => exact fun name hname => absurd hname List.not_mem_nil
  | append_singleton comps c ih =>
      rw [List.foldl_append]
      exact normalStep_isKept (ih fun c hc => hslash c (List.mem_append_left _ hc))
        (hslash c (List.mem_append_right _ List.mem_cons_self))

theorem foldl_normalStep {names : List (List Char)} (before : List (List Char))
    (hnames : ∀ name ∈ names, IsKept name) : names.foldl normalStep before = before ++ names := by
  induction names generalizing before with
  | nil => exact (List.append_nil before).symm
  | cons name names ih =>
      obtain ⟨hname, hdot, hdotDot⟩ := hnames name List.mem_cons_self
      have hstep : normalStep before name = before ++ [name] := by
        rw [normalStep, if_neg (not_or.mpr ⟨hname.1, hdot⟩), if_neg hdotDot]
      rw [List.foldl_cons, hstep, ih _ fun other hother =>
        hnames other (List.mem_cons_of_mem name hother), List.append_assoc]
      rfl

theorem plainAfter_kept {names : List (List Char)} (hnames : ∀ name ∈ names, IsKept name)
    {plain : Bool} (hplain : names = [] → plain = true) : plainAfter plain names = true := by
  induction names generalizing plain with
  | nil => exact hplain rfl
  | cons name names ih =>
      obtain ⟨hname, hdot, hdotDot⟩ := hnames name List.mem_cons_self
      have hskip : ¬ (name = [] ∨ (name = ['.'] ∧ names = [])) :=
        not_or.mpr ⟨hname.1, fun hboth => hdot hboth.1⟩
      rw [plainAfter, if_neg hskip]
      exact ih (fun other hother => hnames other (List.mem_cons_of_mem name hother))
        fun _ => decide_eq_true ⟨hdot, hdotDot⟩

theorem intercalate_slash {names : List (List Char)} (hne : names ≠ []) :
    '/' :: ['/'].intercalate names = renderPath names true := by
  rw [renderPath, if_pos rfl, List.append_nil]
  induction names with
  | nil => exact absurd rfl hne
  | cons name names ih =>
      cases names with
      | nil => simp
      | cons other names =>
          rw [List.flatMap_cons, ← ih (List.cons_ne_nil _ _)]
          simp

theorem canonicalPath_eq (path : List Char) :
    canonicalPath path = renderPath (normalNames path) (normalNames path ≠ []) := by
  rw [canonicalPath]
  by_cases hnil : normalNames path = []
  · rw [hnil]
    rfl
  · rw [intercalate_slash hnil, decide_eq_true hnil]

/-- A canonical path keeps its names, and ends with the last of them. -/
theorem splitOn_canonicalPath {path : List Char} (hne : normalNames path ≠ []) :
    (canonicalPath path).splitOn '/' = [] :: normalNames path := by
  have hslash : ∀ name ∈ normalNames path, '/' ∉ name := fun name hname =>
    (normalNames_isName path name hname).2
  rw [canonicalPath, splitOn_slash, List.splitOn_intercalate '/' hslash hne]

theorem normalNames_canonicalPath (path : List Char) :
    normalNames (canonicalPath path) = normalNames path := by
  by_cases hnil : normalNames path = []
  · rw [canonicalPath, hnil]
    rfl
  · have hkept := foldl_normalStep [] (normalNames_isKept path)
    rw [List.nil_append] at hkept
    rw [normalNames, splitOn_canonicalPath hnil, List.foldl_cons]
    exact hkept

theorem canonicalEnd_canonicalPath (path : List Char) : CanonicalEnd (canonicalPath path) := by
  rw [CanonicalEnd, normalNames_canonicalPath]
  by_cases hnil : normalNames path = []
  · exact .inl hnil
  · refine .inr ?_
    rw [PlainEnd, splitOn_canonicalPath hnil, plainAfter, if_pos (.inl rfl)]
    exact plainAfter_kept (normalNames_isKept path) fun h => absurd h hnil

theorem renderPath_inj_plain {names : List (List Char)} {plain plain' : Bool}
    (h : renderPath names plain = renderPath names plain') : plain = plain' := by
  have hlength := congrArg List.length h
  cases plain <;> cases plain' <;> simp [renderPath] at hlength ⊢

/-- `resolve_path` is canonical for a path that ends with a name, and for no other. -/
theorem resolvePath_canonical_iff {path : List Char} (habsolute : IsAbsolute path) :
    resolvePath path = canonicalPath path ↔ CanonicalEnd path := by
  rw [resolvePath_eq habsolute.1 (Nat.le_sub_one_of_lt habsolute.2), canonicalPath_eq, CanonicalEnd,
    PlainEnd]
  constructor
  · intro h
    have hplain := renderPath_inj_plain h
    by_cases hnil : normalNames path = []
    · exact .inl hnil
    · exact .inr (hplain.trans (decide_eq_true hnil))
  · rintro (hnil | hplain)
    · -- without a name the path does not end with one
      have hplain : plainAfter false (path.splitOn '/') = false := by
        rw [Bool.eq_false_iff]
        exact fun h => PlainEnd.ne_nil h hnil
      rw [hplain, decide_eq_false (not_not.mpr hnil)]
    · rw [hplain, decide_eq_true (PlainEnd.ne_nil hplain)]

theorem renderPath_normalStep_le (names : List (List Char)) (c : List Char) :
    (renderPath (normalStep names c) true).length ≤
      (renderPath names true).length + ('/' :: c).length := by
  rw [normalStep]
  split
  · exact Nat.le_add_right _ _
  · split
    · have hshort := renderPath_length_dropLast names
      rw [renderPath_slash, renderPath_slash, List.length_append, List.length_append] at hshort
      exact Nat.le_add_right_of_le (Nat.le_of_add_le_add_right hshort)
    · rw [renderPath_append, renderPath_slash, List.length_append, List.length_append,
        Nat.add_assoc, List.length_singleton, List.length_cons, Nat.add_comm 1]

theorem renderPath_foldl_le (comps names : List (List Char)) :
    (renderPath (comps.foldl normalStep names) true).length ≤
      (renderPath names true).length + (renderPath comps true).length := by
  induction comps generalizing names with
  | nil => exact Nat.le_add_right _ _
  | cons c comps ih =>
      have hstep := renderPath_normalStep_le names c
      have hrest := ih (normalStep names c)
      have hcons : (renderPath (c :: comps) true).length =
          ('/' :: c).length + (renderPath comps true).length := by
        rw [renderPath, renderPath, List.flatMap_cons, List.append_assoc, List.length_append]
      rw [List.foldl_cons, hcons]
      omega

/-- The names are no longer than the path that they come from. -/
theorem isAbsolute_canonicalPath {path : List Char} (habsolute : IsAbsolute path) :
    IsAbsolute (canonicalPath path) := by
  obtain ⟨hroot, hfits⟩ := habsolute
  refine ⟨rfl, Nat.lt_of_le_of_lt ?_ hfits⟩
  cases path with
  | nil => cases hroot
  | cons c more =>
      obtain rfl : c = '/' := Option.some.inj hroot
      have hnames : normalNames ('/' :: more) = (more.splitOn '/').foldl normalStep [] := by
        rw [normalNames, splitOn_slash]
        rfl
      have hwhole : '/' :: more = renderPath (more.splitOn '/') true := by
        rw [← intercalate_slash (List.splitOn_ne_nil '/' more), List.intercalate_splitOn]
      have hle := renderPath_foldl_le (more.splitOn '/') []
      rw [← hnames, ← hwhole] at hle
      by_cases hnil : normalNames ('/' :: more) = []
      · rw [canonicalPath, hnil, List.intercalate_nil]
        exact Nat.succ_le_succ (Nat.zero_le _)
      · rw [canonicalPath_eq, decide_eq_true hnil]
        exact hle.trans (Nat.zero_add _).le

theorem resolvePath_canonicalPath {path : List Char} (habsolute : IsAbsolute path) :
    resolvePath (canonicalPath path) = canonicalPath path := by
  have hcanonical := (resolvePath_canonical_iff (isAbsolute_canonicalPath habsolute)).mpr
    (canonicalEnd_canonicalPath path)
  rw [hcanonical, canonicalPath, normalNames_canonicalPath, canonicalPath]

/-- `resolve_path` computes the canonical path, is idempotent and does not depend on the
spelling exactly when the path is one of the root or ends with a name. -/
theorem resolves_canonically_iff (path : List Char) (habsolute : IsAbsolute path) :
    ResolvesCanonically path ↔ CanonicalEnd path := by
  constructor
  · intro hresolves
    exact (resolvePath_canonical_iff habsolute).mp hresolves.canonical
  · intro hend
    have hcanonical := (resolvePath_canonical_iff habsolute).mpr hend
    refine ⟨hcanonical, ?_, fun other hother hotherEnd hsame => ?_⟩
    · rw [hcanonical, resolvePath_canonicalPath habsolute]
    · rw [hcanonical, (resolvePath_canonical_iff hother).mpr hotherEnd, canonicalPath, hsame,
        canonicalPath]

theorem resolves_canonically_dots :
    ResolvesCanonically "/a//../b/.".toList ↔ CanonicalEnd "/a//../b/.".toList :=
  resolves_canonically_iff "/a//../b/.".toList (by decide)

/-- Behind ".." a slash stays, until the path is resolved again. -/
theorem resolve_keeps_slash :
    IsAbsolute "/a/b/..".toList ∧ canonicalPath "/a/b/..".toList = "/a".toList ∧
      resolvePath "/a/b/..".toList = "/a/".toList ∧
      resolvePath (resolvePath "/a/b/..".toList) = "/a".toList := by
  have habsolute : IsAbsolute "/a/b/..".toList := by decide
  have hresolved : resolvePath "/a/b/..".toList = "/a/".toList := by
    rw [resolvePath_eq habsolute.1 (Nat.le_sub_one_of_lt habsolute.2)]
    decide
  refine ⟨habsolute, by decide, hresolved, ?_⟩
  rw [hresolved, resolvePath_eq rfl (by decide)]
  decide

end GlitchedOS
