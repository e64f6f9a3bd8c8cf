/-
Path strings in `vfs.c`: `make_absolute` and `resolve_path` on characters, and
what they mean as a list of names.  A string is the list of its characters
before the terminator, and the buffers hold `MAX_PATH` characters.
-/
import Mathlib.Data.List.DropRight

namespace GlitchedOS

def maxPath : Nat := 4096

def withSlash (out : List Char) : List Char :=
  if out.getLast? = some '/' then out else out ++ ['/']

/-- `make_absolute`, with the working directory of the current task; `none` when
the terminator would be written behind the buffer. -/
def makeAbsolute (wd path : List Char) : Option (List Char) :=
  if path.head? = some '/' then some (path.take (maxPath - 1))
  else
    let out := withSlash (wd.take (maxPath - 1))
    if out.length < maxPath then some (out ++ path.take (maxPath - 1 - out.length))
    else none

/-- The component at the start of a path is "." -/
def isDot : List Char → Bool
  | '.' :: '/' :: _ => true
  | path => path = ['.']

/-- The component at the start of a path is ".." -/
def isDotDot : List Char → Bool
  | '.' :: '.' :: '/' :: _ => true
  | path => path = ['.', '.']

/-- Remove the last component but keep the root.  The first character is a
slash, so the search for the previous slash ends there at the latest. -/
def dropComponent (out : List Char) : List Char :=
  if 1 < out.length then
    (if out.getLast? = some '/' then out.dropLast else out).rdropWhile (· ≠ '/')
  else out

theorem withSlash_length (out : List Char) :
    out.length ≤ (withSlash out).length ∧ (withSlash out).length ≤ out.length + 1 := by
  unfold withSlash
  split <;> simp

theorem length_dropWhile_le {α : Type} (p : α → Bool) (l : List α) :
    (l.dropWhile p).length ≤ l.length :=
  (List.dropWhile_sublist p).length_le

/-- A component is copied whole, or the buffer is full. -/
theorem resolve_shrinks {path out : List Char} (hpath : path ≠ [])
    (hroom : out.length < maxPath - 1) :
    let out' := withSlash out
    let name := (path.takeWhile (· ≠ '/')).take (maxPath - 1 - out'.length)
    let rest := (path.drop name.length).dropWhile (· = '/')
    rest.length < path.length ∨
      rest.length = path.length ∧ maxPath - (out' ++ name).length < maxPath - out.length := by
  intro out' name rest
  have hrest : rest.length ≤ path.length - name.length := by
    simpa [rest] using length_dropWhile_le (· = '/') (path.drop name.length)
  have hslash := withSlash_length out
  cases path with
  | nil => exact absurd rfl hpath
  | cons c more =>
      by_cases hname : name = []
      · by_cases hc : c = '/'
        · left
          have hstrip : rest = more.dropWhile (· = '/') := by simp [rest, hname, hc]
          rw [hstrip]
          exact Nat.lt_succ_of_le (length_dropWhile_le _ _)
        · have hfull : maxPath - 1 - out'.length = 0 := by
            simpa [name, List.takeWhile_cons, hc] using hname
          have hsame : rest = c :: more := by simp [rest, hname, hc]
          refine .inr ⟨by rw [hsame], ?_⟩
          rw [hname, List.append_nil]
          simp only [out', maxPath] at *
          omega
      · left
        have hpos := List.length_pos_iff.mpr hname
        simp only [List.length_cons] at hrest ⊢
        omega

/-- The loop of `resolve_path`. -/
def resolveLoop (path out : List Char) : List Char :=
  if _hmore : path ≠ [] ∧ out.length < maxPath - 1 then
    if isDot path then resolveLoop (path.drop 1) out
    else if isDotDot path then
      let path := path.drop 2
      resolveLoop (if path.head? = some '/' then path.drop 1 else path) (dropComponent out)
    else
      let out' := withSlash out
      let name := (path.takeWhile (· ≠ '/')).take (maxPath - 1 - out'.length)
      resolveLoop ((path.drop name.length).dropWhile (· = '/')) (out' ++ name)
  else out
termination_by (path.length, maxPath - out.length)
decreasing_by
  · have hpos := List.length_pos_iff.mpr _hmore.1
    exact Prod.Lex.left _ _ (by simpa using by omega)
  · have hpos := List.length_pos_iff.mpr _hmore.1
    refine Prod.Lex.left _ _ ?_
    split <;> simp <;> omega
  · rw [Prod.lex_def]
    exact resolve_shrinks _hmore.1 _hmore.2

/-- `resolve_path` -/
def resolvePath (path : List Char) : List Char :=
  resolveLoop (path.dropWhile (· = '/')) ['/']

/-- One component of a path, after the names before it. -/
def normalStep (names : List (List Char)) (c : List Char) : List (List Char) :=
  if c = [] ∨ c = ['.'] then names
  else if c = ['.', '.'] then names.dropLast
  else names ++ [c]

/-- The names along an absolute path, with "." and ".." taken out. -/
def normalNames (path : List Char) : List (List Char) :=
  (path.splitOn '/').foldl normalStep []

/-- The last component that counts is a name: components that are empty do not
count, and neither does a "." at the very end. -/
def plainAfter (plain : Bool) : List (List Char) → Bool
  | [] => plain
  | c :: rest =>
    if c = [] ∨ (c = ['.'] ∧ rest = []) then plainAfter plain rest
    else plainAfter (c ≠ ['.'] ∧ c ≠ ['.', '.']) rest

/-- The path ends with a name, but for slashes and one "." at the very end. -/
def PlainEnd (path : List Char) : Prop :=
  plainAfter false (path.splitOn '/') = true

instance (path : List Char) : Decidable (PlainEnd path) :=
  inferInstanceAs (Decidable (_ = true))

/-- The names of a path as a string, with or without a slash at the end. -/
def renderPath (names : List (List Char)) (plain : Bool) : List Char :=
  names.flatMap ('/' :: ·) ++ if plain then [] else ['/']

/-- A name is not empty and has no slash. -/
def IsName (name : List Char) : Prop :=
  name ≠ [] ∧ '/' ∉ name

@[simp] theorem renderPath_nil : renderPath [] false = ['/'] := rfl

theorem renderPath_slash (names : List (List Char)) :
    renderPath names false = renderPath names true ++ ['/'] := by
  simp [renderPath]

theorem renderPath_append (names : List (List Char)) (name : List Char) :
    renderPath (names ++ [name]) true = renderPath names false ++ name := by
  simp [renderPath]

theorem renderPath_length_le (names : List (List Char)) (plain : Bool) :
    (renderPath names plain).length ≤ (renderPath names false).length := by
  cases plain <;> simp [renderPath]

theorem renderPath_length_dropLast (names : List (List Char)) :
    (renderPath names.dropLast false).length ≤ (renderPath names false).length := by
  cases names using List.reverseRec with
  | nil => simp
  | append_singleton names name => simp [renderPath]

theorem getLast?_renderPath {names : List (List Char)} (hnames : ∀ name ∈ names, IsName name)
    (plain : Bool) : (renderPath names plain).getLast? = some '/' ↔ plain = false := by
  cases plain with
  | false => simp [renderPath_slash]
  | true =>
      cases names using List.reverseRec with
      | nil => simp [renderPath]
      | append_singleton names name =>
          obtain ⟨hne, hslash⟩ := hnames name (by simp)
          rw [renderPath_append, List.getLast?_append_of_ne_nil _ hne]
          simpa using fun hlast => hslash (List.mem_of_getLast? hlast)

theorem withSlash_renderPath {names : List (List Char)}
    (hnames : ∀ name ∈ names, IsName name) (plain : Bool) :
    withSlash (renderPath names plain) = renderPath names false := by
  simp only [withSlash, getLast?_renderPath hnames]
  cases plain with
  | false => simp
  | true => simp [renderPath_slash]

/-- Going back over a component leaves the names before it. -/
theorem dropComponent_renderPath {names : List (List Char)}
    (hnames : ∀ name ∈ names, IsName name) {plain : Bool} (hroot : names = [] → plain = false) :
    dropComponent (renderPath names plain) = renderPath names.dropLast false := by
  cases names using List.reverseRec with
  | nil => rw [hroot rfl]; rfl
  | append_singleton names name =>
      obtain ⟨hne, hslash⟩ := hnames name (by simp)
      have hlong : 1 < (renderPath (names ++ [name]) plain).length := by
        have hpos := List.length_pos_iff.mpr hne
        simp only [renderPath, List.flatMap_append, List.flatMap_singleton, List.length_append,
          List.length_cons]
        omega
      have hstripped : (if (renderPath (names ++ [name]) plain).getLast? = some '/'
            then (renderPath (names ++ [name]) plain).dropLast
            else renderPath (names ++ [name]) plain) = renderPath names false ++ name := by
        simp only [getLast?_renderPath hnames, ← renderPath_append]
        cases plain with
        | false => simp [renderPath_slash]
        | true => simp
      have hin : ∀ c ∈ name.reverse, decide (c ≠ '/') = true := by
        intro c hc
        have hother : c ≠ '/' := fun h => hslash (h ▸ List.mem_reverse.mp hc)
        simp [hother]
      rw [dropComponent, if_pos hlong, hstripped, List.dropLast_concat, renderPath_slash,
        List.rdropWhile, List.reverse_append,
        List.dropWhile_append_of_pos hin]
      simp

theorem takeWhile_name {name tail : List Char} (hname : IsName name)
    (htail : tail = [] ∨ ∃ more, tail = '/' :: more) :
    (name ++ tail).takeWhile (· ≠ '/') = name := by
  rw [List.takeWhile_append_of_pos]
  · rcases htail with rfl | ⟨more, rfl⟩ <;> simp
  · intro c hc
    have hne : c ≠ '/' := fun h => hname.2 (h ▸ hc)
    simp [hne]

theorem isDot_iff (path : List Char) : isDot path = true ↔ path.takeWhile (· ≠ '/') = ['.'] := by
  match path with
  | [] => decide
  | [c] => by_cases hc : c = '/' <;> simp [isDot, hc]
  | c :: d :: more =>
      by_cases hc : c = '/'
      · simp [isDot, hc]
      · by_cases hd : d = '/'
        · subst hd
          by_cases h : c = '.' <;> simp [isDot, hc, h]
        · simp [isDot, hc, hd]

theorem isDotDot_iff (path : List Char) :
    isDotDot path = true ↔ path.takeWhile (· ≠ '/') = ['.', '.'] := by
  match path with
  | [] => decide
  | [c] => by_cases hc : c = '/' <;> simp [isDotDot, hc]
  | [c, d] =>
      by_cases hc : c = '/' <;> by_cases hd : d = '/' <;> simp [isDotDot, hc, hd]
  | c :: d :: e :: more =>
      by_cases hc : c = '/'
      · simp [isDotDot, hc]
      · by_cases hd : d = '/'
        · simp [isDotDot, hc, hd]
        · by_cases he : e = '/'
          · subst he
            by_cases h : c = '.' <;> by_cases h' : d = '.' <;> simp [isDotDot, hc, hd, h, h']
          · simp [isDotDot, hc, hd, he]

section Rounds

variable {out : List Char} (hroom : out.length < maxPath - 1)
include hroom

theorem resolveLoop_round {path : List Char} (hpath : path ≠ []) :
    resolveLoop path out =
      if isDot path then resolveLoop (path.drop 1) out
      else if isDotDot path then
        resolveLoop (if (path.drop 2).head? = some '/' then (path.drop 2).drop 1 else path.drop 2)
          (dropComponent out)
      else
        let name := (path.takeWhile (· ≠ '/')).take (maxPath - 1 - (withSlash out).length)
        resolveLoop ((path.drop name.length).dropWhile (· = '/')) (withSlash out ++ name) := by
  rw [resolveLoop, dif_pos ⟨hpath, hroom⟩]

theorem resolveLoop_slash (more : List Char) :
    resolveLoop ('/' :: more) out = resolveLoop (more.dropWhile (· = '/')) (withSlash out) := by
  rw [resolveLoop_round hroom (List.cons_ne_nil _ _)]
  simp [isDot, isDotDot]

theorem resolveLoop_dot : resolveLoop ['.'] out = out := by
  rw [resolveLoop_round hroom (List.cons_ne_nil _ _)]
  simp [isDot, resolveLoop]

theorem resolveLoop_dot_slash (more : List Char) :
    resolveLoop ('.' :: '/' :: more) out = resolveLoop ('/' :: more) out := by
  rw [resolveLoop_round hroom (List.cons_ne_nil _ _)]
  simp [isDot]

theorem resolveLoop_dotDot : resolveLoop ['.', '.'] out = dropComponent out := by
  rw [resolveLoop_round hroom (List.cons_ne_nil _ _)]
  simp [isDot, isDotDot, resolveLoop]

theorem resolveLoop_dotDot_slash (more : List Char) :
    resolveLoop ('.' :: '.' :: '/' :: more) out = resolveLoop more (dropComponent out) := by
  rw [resolveLoop_round hroom (List.cons_ne_nil _ _)]
  simp [isDot, isDotDot]

theorem resolveLoop_name {name tail : List Char} (hname : IsName name) (hdot : name ≠ ['.'])
    (hdotDot : name ≠ ['.', '.']) (htail : tail = [] ∨ ∃ more, tail = '/' :: more)
    (hfits : (withSlash out).length + name.length ≤ maxPath - 1) :
    resolveLoop (name ++ tail) out =
      resolveLoop (tail.dropWhile (· = '/')) (withSlash out ++ name) := by
  have hcomponent := takeWhile_name hname htail
  have hne : name ++ tail ≠ [] := List.append_ne_nil_of_left_ne_nil hname.1 _
  have hfirst : ¬ isDot (name ++ tail) = true := by rwa [isDot_iff, hcomponent]
  have hsecond : ¬ isDotDot (name ++ tail) = true := by rwa [isDotDot_iff, hcomponent]
  rw [resolveLoop_round hroom hne, if_neg hfirst, if_neg hsecond]
  simp only [hcomponent]
  rw [List.take_of_length_le (by omega), List.drop_left]

end Rounds

theorem splitOn_slash (path : List Char) :
    ('/' :: path).splitOn '/' = [] :: path.splitOn '/' :=
  List.splitOn_append_cons_self [] path

theorem splitOn_strip (path : List Char) (names : List (List Char)) (plain : Bool) :
    ((path.dropWhile (· = '/')).splitOn '/').foldl normalStep names =
        (path.splitOn '/').foldl normalStep names ∧
      plainAfter plain ((path.dropWhile (· = '/')).splitOn '/') =
        plainAfter plain (path.splitOn '/') := by
  induction path with
  | nil => simp
  | cons c path ih =>
      by_cases hc : c = '/'
      · subst hc
        simpa [splitOn_slash, normalStep, plainAfter] using ih
      · simp [hc]

theorem path_cases (path : List Char) :
    path = [] ∨ (∃ more, path = '/' :: more) ∨
      ∃ name tail, IsName name ∧ (tail = [] ∨ ∃ more, tail = '/' :: more) ∧
        path = name ++ tail := by
  match path with
  | [] => exact .inl rfl
  | c :: rest =>
      by_cases hc : c = '/'
      · exact .inr (.inl ⟨rest, by rw [hc]⟩)
      · refine .inr (.inr ⟨(c :: rest).takeWhile (· ≠ '/'), (c :: rest).dropWhile (· ≠ '/'),
          ⟨by simp [hc], fun hmem => by simpa using List.mem_takeWhile_imp hmem⟩, ?_,
          (List.takeWhile_append_dropWhile).symm⟩)
        rcases htail : (c :: rest).dropWhile (· ≠ '/') with _ | ⟨d, more⟩
        · exact .inl rfl
        · have hstop := List.head?_dropWhile_not (· ≠ '/') (c :: rest)
          rw [htail] at hstop
          obtain rfl : d = '/' := by simpa using hstop
          exact .inr ⟨more, rfl⟩

theorem normalStep_isName {names : List (List Char)} (hnames : ∀ name ∈ names, IsName name)
    {c : List Char} (hc : '/' ∉ c) : ∀ name ∈ normalStep names c, IsName name := by
  intro name hname
  unfold normalStep at hname
  split at hname
  · exact hnames name hname
  · rename_i hne
    split at hname
    · exact hnames name (List.dropLast_subset names hname)
    · rcases List.mem_append.mp hname with hname | hname
      · exact hnames name hname
      · rw [List.mem_singleton] at hname
        exact ⟨fun h => hne (.inl (hname ▸ h)), hname ▸ hc⟩

/-- What the loop has written is the names so far, and what is left to read has
room: a component that is read was followed by the slash that will be written. -/
theorem resolveLoop_spec (path : List Char) (names : List (List Char)) (plain : Bool)
    (hnames : ∀ name ∈ names, IsName name) (hroot : names = [] → plain = false)
    (hslash : path.head? = some '/' → plain = false)
    (hroom : path ≠ [] → (renderPath names false).length + path.length ≤ maxPath - 1) :
    resolveLoop path (renderPath names plain) =
      renderPath ((path.splitOn '/').foldl normalStep names)
        (plainAfter plain (path.splitOn '/')) := by
  induction hn : path.length using Nat.strong_induction_on generalizing path names plain with
  | _ n ih =>
  subst hn
  rcases path_cases path with rfl | ⟨more, rfl⟩ | ⟨name, tail, hname, htail, rfl⟩
  · simp [resolveLoop, normalStep, plainAfter]
  · obtain rfl := hslash rfl
    have hroom := hroom (List.cons_ne_nil _ _)
    have hshort := length_dropWhile_le (· = '/') more
    have hstrip := splitOn_strip more names false
    simp only [List.length_cons] at hroom ih
    have hrest := ih _ (Nat.lt_succ_of_le hshort) _ names false hnames hroot
      (fun _ => rfl) (fun _ => by omega) rfl
    rw [resolveLoop_slash (by omega), withSlash_renderPath hnames, hrest, hstrip.1, hstrip.2,
      splitOn_slash]
    simp [normalStep, plainAfter]
  · have hroom := hroom (List.append_ne_nil_of_left_ne_nil hname.1 _)
    have hle := renderPath_length_le names plain
    have hpos := List.length_pos_iff.mpr hname.1
    simp only [List.length_append] at hroom ih
    have hspace : (renderPath names plain).length < maxPath - 1 := by omega
    by_cases hdot : name = ['.']
    · subst hdot
      rcases htail with rfl | ⟨more, rfl⟩
      · rw [List.append_nil, resolveLoop_dot hspace]
        simp [List.splitOn_eq_singleton hname.2, normalStep, plainAfter]
      · have hshort := length_dropWhile_le (· = '/') more
        have hstrip := splitOn_strip more names false
        simp only [List.length_cons] at hroom ih
        have hrest := ih _ (by omega) (more.dropWhile (· = '/')) names false hnames
          (fun _ => rfl) (fun _ => rfl) (fun _ => by omega) rfl
        rw [List.splitOn_append_cons_self_of_not_mem hname.2, List.cons_append, List.nil_append,
          resolveLoop_dot_slash hspace, resolveLoop_slash hspace, withSlash_renderPath hnames,
          hrest, hstrip.1, hstrip.2]
        simp [normalStep, plainAfter]
    · by_cases hdotDot : name = ['.', '.']
      · subst hdotDot
        have hback := dropComponent_renderPath hnames hroot
        have hshort := renderPath_length_dropLast names
        rcases htail with rfl | ⟨more, rfl⟩
        · rw [List.append_nil, resolveLoop_dotDot hspace, hback]
          simp [List.splitOn_eq_singleton hname.2, normalStep, plainAfter]
        · simp only [List.length_cons] at hroom ih
          have hrest := ih _ (by omega) more names.dropLast false
            (fun name h => hnames name (List.dropLast_subset _ h)) (fun _ => rfl) (fun _ => rfl)
            (fun _ => by omega) rfl
          rw [List.splitOn_append_cons_self_of_not_mem hname.2, List.cons_append, List.cons_append,
            List.nil_append, resolveLoop_dotDot_slash hspace, hback, hrest]
          simp [normalStep, plainAfter]
      · have hnew := normalStep_isName hnames hname.2
        have hstep : normalStep names name = names ++ [name] := by
          simp [normalStep, hname.1, hdot, hdotDot]
        have hout := withSlash_renderPath hnames plain
        rw [resolveLoop_name hspace hname hdot hdotDot htail (by rw [hout]; omega), hout,
          ← renderPath_append, ← hstep]
        rcases htail with rfl | ⟨more, rfl⟩
        · simp [List.splitOn_eq_singleton hname.2, resolveLoop, plainAfter, hname.1, hdot, hdotDot]
        · have hshort := length_dropWhile_le (· = '/') more
          have hstrip := splitOn_strip more (normalStep names name) true
          have hlonger : (renderPath (normalStep names name) false).length =
              (renderPath names false).length + name.length + 1 := by
            rw [hstep, renderPath_slash, renderPath_append]
            simp [Nat.add_assoc]
          have hstart : (more.dropWhile (· = '/')).head? ≠ some '/' := fun h => by
            simpa [h] using List.head?_dropWhile_not (· = '/') more
          simp only [List.length_cons] at hroom ih
          have hrest := ih _ (by omega) (more.dropWhile (· = '/')) (normalStep names name) true
            hnew (fun h => by simp [hstep] at h) (fun h => absurd h hstart)
            (fun _ => by omega) rfl
          rw [List.splitOn_append_cons_self_of_not_mem hname.2,
            List.dropWhile_cons_of_pos (by simp), hrest, hstrip.1, hstrip.2]
          simp [plainAfter, hname.1, hdot, hdotDot]

/-- `resolve_path` writes the names of the path, and a slash behind them unless
the path ends plainly. -/
theorem resolvePath_eq {path : List Char} (hroot : path.head? = some '/')
    (hfits : path.length ≤ maxPath - 1) :
    resolvePath path = renderPath (normalNames path) (plainAfter false (path.splitOn '/')) := by
  have hstrip := splitOn_strip path [] false
  have hshort : path ≠ [] ∧ (path.dropWhile (· = '/')).length + 1 ≤ path.length := by
    cases path with
    | nil => cases hroot
    | cons c more =>
        obtain rfl : c = '/' := by simpa using hroot
        have hle := length_dropWhile_le (· = '/') more
        simpa using hle
  have hloop := resolveLoop_spec (path.dropWhile (· = '/')) [] false (by simp) (fun _ => rfl)
    (fun _ => rfl) (fun _ => by rw [renderPath_nil, List.length_singleton]; omega)
  rw [renderPath_nil, hstrip.1, hstrip.2] at hloop
  rw [resolvePath, hloop, normalNames]

theorem splitOn_component (path : List Char) :
    ∀ c ∈ path.splitOn '/', '/' ∉ c ∧ c.Sublist path := by
  induction path with
  | nil => simp
  | cons a path ih =>
      intro c hc
      rw [List.splitOn_cons_eq_if_modifyHead] at hc
      by_cases ha : a = '/'
      · rw [if_pos (by simp [ha]), List.mem_cons] at hc
        rcases hc with rfl | hc
        · exact ⟨List.not_mem_nil, List.nil_sublist _⟩
        · exact ⟨(ih c hc).1, (ih c hc).2.cons a⟩
      · rw [if_neg (by simp [ha])] at hc
        cases hsplit : path.splitOn '/' with
        | nil => simp [hsplit] at hc
        | cons first rest =>
            rw [hsplit] at ih hc
            rw [List.modifyHead_cons, List.mem_cons] at hc
            rcases hc with rfl | hc
            · obtain ⟨hslash, hsub⟩ := ih first List.mem_cons_self
              exact ⟨by simpa [Ne.symm ha] using hslash, hsub.cons_cons a⟩
            · obtain ⟨hslash, hsub⟩ := ih c (List.mem_cons_of_mem _ hc)
              exact ⟨hslash, hsub.cons a⟩

theorem normalNames_isName (path : List Char) : ∀ name ∈ normalNames path, IsName name := by
  have hslash := fun c hc => (splitOn_component path c hc).1
  rw [normalNames]
  generalize path.splitOn '/' = comps at hslash ⊢
  induction comps using List.reverseRec with
  | nil => simp
  | append_singleton comps c ih =>
      rw [List.foldl_append]
      exact normalStep_isName (ih fun c hc => hslash c (List.mem_append_left _ hc))
        (hslash c (by simp))

theorem plainAfter_ne_nil {comps names : List (List Char)} {plain : Bool}
    (hplain : plainAfter plain comps = true) (hnames : plain = true → names ≠ []) :
    comps.foldl normalStep names ≠ [] := by
  induction comps generalizing names plain with
  | nil => exact hnames hplain
  | cons c rest ih =>
      rw [List.foldl_cons]
      by_cases hskip : c = [] ∨ (c = ['.'] ∧ rest = [])
      · rw [plainAfter, if_pos hskip] at hplain
        have hsame : normalStep names c = names := if_pos (hskip.imp_right And.left)
        rw [hsame]
        exact ih hplain hnames
      · rw [plainAfter, if_neg hskip] at hplain
        apply ih hplain
        intro hname
        rw [not_or] at hskip
        simp only [ne_eq, Bool.decide_and, Bool.and_eq_true, decide_eq_true_eq] at hname
        simp [normalStep, hskip.1, hname.1, hname.2]

theorem PlainEnd.ne_nil {path : List Char} (h : PlainEnd path) : normalNames path ≠ [] :=
  plainAfter_ne_nil h (by simp)

/-- The working directory of a task: `chdir` stores a resolved path. -/
structure WorkingDir where
  chars : List Char
  absolute : chars.head? = some '/'

def fullPath (wd : WorkingDir) (path : List Char) : List Char :=
  if path.head? = some '/' then path else withSlash wd.chars ++ path

theorem withSlash_root {out : List Char} (h : out.head? = some '/') :
    (withSlash out).head? = some '/' := by
  unfold withSlash
  split
  · exact h
  · rw [List.head?_append, h]
    rfl

theorem makeAbsolute_root {wd : WorkingDir} {path out : List Char}
    (h : makeAbsolute wd.chars path = some out) :
    out.head? = some '/' ∧ out.length ≤ maxPath - 1 := by
  unfold makeAbsolute at h
  split at h
  · rename_i hroot
    obtain rfl := Option.some.inj h
    exact ⟨by rw [List.head?_take, if_neg (by decide), hroot], List.length_take_le _ _⟩
  · dsimp only at h
    split at h
    · rename_i hfits
      obtain rfl := Option.some.inj h
      have hwd : (wd.chars.take (maxPath - 1)).head? = some '/' := by
        rw [List.head?_take, if_neg (by decide), wd.absolute]
      rw [List.head?_append, withSlash_root hwd]
      refine ⟨rfl, ?_⟩
      rw [List.length_append, List.length_take]
      omega
    · cases h

theorem makeAbsolute_fits {wd : WorkingDir} {path : List Char}
    (hfits : (fullPath wd path).length < maxPath) :
    makeAbsolute wd.chars path = some (fullPath wd path) := by
  unfold fullPath at hfits ⊢
  unfold makeAbsolute
  split
  · rename_i hroot
    rw [if_pos hroot] at hfits
    rw [List.take_of_length_le (by omega)]
  · rename_i hroot
    rw [if_neg hroot, List.length_append] at hfits
    have hwd := (withSlash_length wd.chars).1
    have hwhole : wd.chars.take (maxPath - 1) = wd.chars := List.take_of_length_le (by omega)
    rw [hwhole, if_pos (by omega), List.take_of_length_le (by omega)]

end GlitchedOS
