/-
`fnmatch`.  The matcher walks through pattern and string together and tries the ways a
star may end one after the other; what it decides is a language, defined on its own by the
heads of the pattern.
-/
import Mathlib.Data.List.Basic

namespace GlitchedOS

/-- The flags that `fnmatch` looks at. -/
structure FnmFlags where
  pathname : Bool
  noescape : Bool
  period : Bool
deriving DecidableEq, Repr

def fnmNomatch : Int := 1

/-- `period_blocked`.  `before` is the character in front of the string that is left, and
there is none at the start. -/
def periodBlocked (flags : FnmFlags) (before : Option Char) (c : Char) : Bool :=
  if !flags.period || c != '.' then false
  else
    match before with
    | none => true
    | some b => flags.pathname && b == '/'

/-- The tests in front of the characters that do not stand for themselves. -/
def charBlocked (flags : FnmFlags) (before : Option Char) (c : Char) : Bool :=
  flags.pathname && c == '/' || periodBlocked flags before c

/-- The character that `x` stands for with `q` behind it, and what is left of `q`: a backslash
is taken off unless it is the last character. -/
def escapedChar (flags : FnmFlags) (x : Char) (q : List Char) : Char × List Char :=
  match q with
  | y :: rest => if x == '\\' && !flags.noescape then (y, rest) else (x, q)
  | [] => (x, [])

/-- The end of a range is a hyphen away, and does not close the bracket. -/
def rangeEnd : List Char → Option (Char × List Char)
  | '-' :: y :: q => if y = ']' then none else some (y, q)
  | _ => none

/-- What one round of the loop in `match_bracket` reads: a character, or a range with both
ends, and what is behind it. -/
structure BracketItem where
  lo : Char
  hi : Option Char
  rest : List Char

def bracketItem (flags : FnmFlags) (x : Char) (q : List Char) : BracketItem :=
  let lo := escapedChar flags x q
  match rangeEnd lo.2 with
  | some (y, rest) =>
    let hi := escapedChar flags y rest
    ⟨lo.1, some hi.1, hi.2⟩
  | none => ⟨lo.1, none, lo.2⟩

/-- The character is the one of the item, or in its range. -/
def itemMatches (c lo : Char) : Option Char → Bool
  | some hi => decide (lo ≤ hi) && decide (lo ≤ c) && decide (c ≤ hi)
  | none => c == lo

theorem escapedChar_length (flags : FnmFlags) (x : Char) (q : List Char) :
    (escapedChar flags x q).2.length ≤ q.length := by
  unfold escapedChar
  cases q with
  | nil => exact Nat.le_refl _
  | cons y rest =>
      dsimp only
      split
      · exact Nat.le_succ _
      · exact Nat.le_refl _

theorem rangeEnd_eq_some {q rest : List Char} {y : Char} :
    rangeEnd q = some (y, rest) ↔ q = '-' :: y :: rest ∧ y ≠ ']' := by
  constructor
  · intro h
    unfold rangeEnd at h
    split at h
    · next y' q' =>
        split at h
        · cases h
        · next hy =>
            obtain ⟨rfl, rfl⟩ := Prod.mk.inj (Option.some.inj h)
            exact ⟨rfl, hy⟩
    · cases h
  · rintro ⟨rfl, hy⟩
    exact if_neg hy

theorem bracketItem_length (flags : FnmFlags) (x : Char) (q : List Char) :
    (bracketItem flags x q).rest.length ≤ q.length := by
  have hlo := escapedChar_length flags x q
  unfold bracketItem
  dsimp only
  split
  · next y rest hrange =>
      have hhi := escapedChar_length flags y rest
      have hrest := congrArg List.length (rangeEnd_eq_some.mp hrange).1
      simp only [List.length_cons] at hrest
      dsimp only
      omega
  · exact hlo

/-- The loop of `match_bracket`: whether the character is in the set, and what is behind
the bracket. -/
def bracketLoop (flags : FnmFlags) (c : Char) :
    List Char → Bool → Bool → Option (Bool × List Char)
  | [], _, _ => none
  | x :: q, matched, haveChar =>
    if x = ']' then if haveChar then some (matched, q) else none
    else
      let item := bracketItem flags x q
      bracketLoop flags c item.rest (matched || itemMatches c item.lo item.hi) true
termination_by q => q.length
decreasing_by exact Nat.lt_succ_of_le (bracketItem_length flags x q)

theorem bracketLoop_length {flags : FnmFlags} {c : Char} {q after : List Char}
    {matched haveChar result : Bool}
    (h : bracketLoop flags c q matched haveChar = some (result, after)) :
    after.length < q.length := by
  fun_induction bracketLoop flags c q matched haveChar with
  | case1 => cases h
  | case2 => simp_all
  | case3 => cases h
  | case4 x q matched haveChar hx item ih =>
      exact Nat.lt_succ_of_lt (Nat.lt_of_lt_of_le (ih h) (bracketItem_length flags x q))

/-- A sign of negation at the beginning of a bracket expression. -/
def bracketNegated : List Char → Bool × List Char
  | '!' :: q => (true, q)
  | '^' :: q => (true, q)
  | q => (false, q)

/-- The loop behind the sign.  A closing bracket at the beginning is one of the set. -/
def bracketBody (flags : FnmFlags) (c : Char) : List Char → Option (Bool × List Char)
  | ']' :: q => bracketLoop flags c q (c == ']') true
  | q => bracketLoop flags c q false false

/-- `match_bracket` behind the opening bracket; an unclosed one is no result. -/
def matchBracket (flags : FnmFlags) (p : List Char) (c : Char) : Option (Bool × List Char) :=
  let negated := bracketNegated p
  (bracketBody flags c negated.2).map fun found =>
    (if negated.1 then !found.1 else found.1, found.2)

theorem bracketNegated_length (p : List Char) : (bracketNegated p).2.length ≤ p.length := by
  unfold bracketNegated
  split
  · exact Nat.le_succ _
  · exact Nat.le_succ _
  · exact Nat.le_refl _

theorem matchBracket_length {flags : FnmFlags} {p after : List Char} {c : Char}
    {result : Bool} (h : matchBracket flags p c = some (result, after)) :
    after.length < p.length := by
  have hnegated := bracketNegated_length p
  unfold matchBracket at h
  obtain ⟨⟨matched, after'⟩, hloop, hresult⟩ := Option.map_eq_some_iff.mp h
  obtain rfl : after' = after := (Prod.mk.inj hresult).2
  unfold bracketBody at hloop
  split at hloop
  · next q hq =>
      have hafter := bracketLoop_length hloop
      rw [hq, List.length_cons] at hnegated
      omega
  · exact Nat.lt_of_lt_of_le (bracketLoop_length hloop) hnegated

/-- The loop over the characters that a star may stand for; `rest` tries the pattern behind
the star. -/
def matchStar (flags : FnmFlags) (rest : Option Char → List Char → Bool) :
    Option Char → List Char → Bool
  | _, [] => false
  | before, c :: s =>
    if charBlocked flags before c then false
    else rest (some c) s || matchStar flags rest (some c) s

/-- `match_here` -/
def matchHere (flags : FnmFlags) : List Char → Option Char → List Char → Bool
  | [], _, s => s.isEmpty
  | '?' :: p, before, s =>
    match s with
    | [] => false
    | c :: s => if charBlocked flags before c then false else matchHere flags p (some c) s
  | '*' :: p, before, s =>
    let p' := p.dropWhile (· == '*')
    matchHere flags p' before s ||
      matchStar flags (fun before s => matchHere flags p' before s) before s
  | '[' :: p, before, s =>
    match s with
    | [] => false
    | c :: s =>
      if charBlocked flags before c then false
      else
        match _hbracket : matchBracket flags p c with
        | none => if c = '[' then matchHere flags p (some c) s else false
        | some (matched, after) =>
          if matched then matchHere flags after (some c) s else false
  | '\\' :: p, _, s =>
    let q := escapedChar flags '\\' p
    match s with
    | [] => false
    | c :: s => if c = q.1 then matchHere flags q.2 (some c) s else false
  | x :: p, _, s =>
    match s with
    | [] => false
    | c :: s => if c = x then matchHere flags p (some c) s else false
termination_by p => p.length
decreasing_by
  · exact Nat.lt_succ_self _
  · exact Nat.lt_succ_of_le ((List.dropWhile_sublist _).length_le)
  · exact Nat.lt_succ_of_le ((List.dropWhile_sublist _).length_le)
  · exact Nat.lt_succ_self _
  · exact Nat.lt_succ_of_lt (matchBracket_length _hbracket)
  · exact Nat.lt_succ_of_le (escapedChar_length flags '\\' p)
  · exact Nat.lt_succ_self _

/-- `fnmatch`, with a null pointer as `none`. -/
def fnmatch (pattern string : Option (List Char)) (flags : FnmFlags) : Int :=
  match pattern, string with
  | some pattern, some string =>
    if matchHere flags pattern none string then 0 else fnmNomatch
  | _, _ => fnmNomatch

/-! ### The pattern language -/

variable {flags : FnmFlags} {p q after : List Char} {c lo : Char}
variable {before : Option Char} {s : List Char} {items : List (Char × Option Char)} {result : Bool}

/-- A character of a bracket expression: the next one behind a backslash, or itself. -/
inductive ItemChar (flags : FnmFlags) : List Char → Char → List Char → Prop
  | escaped (c : Char) (q : List Char) (hescape : flags.noescape = false) :
      ItemChar flags ('\\' :: c :: q) c q
  | plain (c : Char) (q : List Char)
      (hplain : c = '\\' → flags.noescape = true ∨ q = []) : ItemChar flags (c :: q) c q

/-- The items of a bracket expression up to its end, with their upper ends. -/
inductive BracketItems (flags : FnmFlags) :
    List Char → List (Char × Option Char) → List Char → Prop
  | close (after : List Char) : BracketItems flags (']' :: after) [] after
  | range {q r rest after : List Char} {lo hi : Char} {items : List (Char × Option Char)}
      (hopen : q.head? ≠ some ']') (hlo : ItemChar flags q lo ('-' :: r))
      (hr : r.head? ≠ some ']') (hhi : ItemChar flags r hi rest)
      (hrest : BracketItems flags rest items after) :
      BracketItems flags q ((lo, some hi) :: items) after
  | single {q rest after : List Char} {c : Char} {items : List (Char × Option Char)}
      (hopen : q.head? ≠ some ']') (hc : ItemChar flags q c rest)
      (hrange : ∀ r, rest = '-' :: r → r = [] ∨ r.head? = some ']')
      (hrest : BracketItems flags rest items after) :
      BracketItems flags q ((c, none) :: items) after

/-- A closing bracket at the beginning stands for itself. -/
inductive BracketBody (flags : FnmFlags) :
    List Char → List (Char × Option Char) → List Char → Prop
  | leading {q after : List Char} {items : List (Char × Option Char)}
      (hitems : BracketItems flags q items after) :
      BracketBody flags (']' :: q) ((']', none) :: items) after
  | plain {q after : List Char} {items : List (Char × Option Char)}
      (hopen : q.head? ≠ some ']') (hitems : BracketItems flags q items after) :
      BracketBody flags q items after

/-- A bracket expression behind its opening bracket: whether it is negated, its items, and
what is behind it. -/
inductive Bracket (flags : FnmFlags) :
    List Char → Bool → List (Char × Option Char) → List Char → Prop
  | negated {sign : Char} {q after : List Char} {items : List (Char × Option Char)}
      (hsign : sign = '!' ∨ sign = '^') (hbody : BracketBody flags q items after) :
      Bracket flags (sign :: q) true items after
  | positive {q after : List Char} {items : List (Char × Option Char)}
      (hsign : q.head? ≠ some '!' ∧ q.head? ≠ some '^')
      (hbody : BracketBody flags q items after) : Bracket flags q false items after

/-- The characters an item stands for. -/
def InItem (c lo : Char) : Option Char → Prop
  | some hi => lo ≤ c ∧ c ≤ hi
  | none => c = lo

/-- The set of a bracket expression. -/
def InItems (items : List (Char × Option Char)) (c : Char) : Prop :=
  ∃ item ∈ items, InItem c item.1 item.2

/-- Characters that wildcards stand for: no slash under `FNM_PATHNAME`, and no leading
period under `FNM_PERIOD`.  A period leads at the start, and behind a slash in a path. -/
def Allowed (flags : FnmFlags) (before : Option Char) (c : Char) : Prop :=
  ¬ (flags.pathname = true ∧ c = '/') ∧
    ¬ (flags.period = true ∧ c = '.' ∧
      (before = none ∨ flags.pathname = true ∧ before = some '/'))

/-- The characters of a pattern that may stand for others. -/
def Special (c : Char) : Prop := c = '?' ∨ c = '*' ∨ c = '[' ∨ c = '\\'

/-- The language of a pattern, behind the character `before`. -/
inductive Fnm (flags : FnmFlags) : List Char → Option Char → List Char → Prop
  | done (before : Option Char) : Fnm flags [] before []
  | one {p s : List Char} {before : Option Char} {c : Char} (hc : Allowed flags before c)
      (hrest : Fnm flags p (some c) s) : Fnm flags ('?' :: p) before (c :: s)
  | starNone {p s : List Char} {before : Option Char} (hrest : Fnm flags p before s) :
      Fnm flags ('*' :: p) before s
  | starMore {p s : List Char} {before : Option Char} {c : Char}
      (hc : Allowed flags before c) (hrest : Fnm flags ('*' :: p) (some c) s) :
      Fnm flags ('*' :: p) before (c :: s)
  | bracket {p after s : List Char} {before : Option Char} {c : Char} {negate : Bool}
      {items : List (Char × Option Char)} (hbracket : Bracket flags p negate items after)
      (hc : Allowed flags before c) (hin : InItems items c ↔ negate = false)
      (hrest : Fnm flags after (some c) s) : Fnm flags ('[' :: p) before (c :: s)
  | unclosed {p s : List Char} {before : Option Char}
      (hopen : ∀ negate items after, ¬ Bracket flags p negate items after)
      (hrest : Fnm flags p (some '[') s) : Fnm flags ('[' :: p) before ('[' :: s)
  | escaped {p s : List Char} {before : Option Char} {c : Char}
      (hescape : flags.noescape = false) (hrest : Fnm flags p (some c) s) :
      Fnm flags ('\\' :: c :: p) before (c :: s)
  | backslash {p s : List Char} {before : Option Char}
      (hplain : flags.noescape = true ∨ p = []) (hrest : Fnm flags p (some '\\') s) :
      Fnm flags ('\\' :: p) before ('\\' :: s)
  | itself {p s : List Char} {before : Option Char} {c : Char} (hc : ¬ Special c)
      (hrest : Fnm flags p (some c) s) : Fnm flags (c :: p) before (c :: s)

/-! ### Bracket expressions -/

theorem charBlocked_eq_false (before : Option Char) :
    charBlocked flags before c = false ↔ Allowed flags before c := by
  unfold charBlocked periodBlocked Allowed
  cases before with
  | none => cases flags.pathname <;> cases flags.period <;> simp
  | some b => cases flags.pathname <;> cases flags.period <;> simp

theorem itemMatches_iff (hi : Option Char) : itemMatches c lo hi = true ↔ InItem c lo hi := by
  cases hi with
  | none => simp [itemMatches, InItem]
  | some hi =>
      simp only [itemMatches, InItem, Bool.and_eq_true, decide_eq_true_eq]
      constructor
      · rintro ⟨⟨-, hlo⟩, hhi⟩
        exact ⟨hlo, hhi⟩
      · rintro ⟨hlo, hhi⟩
        exact ⟨⟨Char.le_trans hlo hhi, hlo⟩, hhi⟩

theorem itemChar_iff {x y : Char} {rest : List Char} :
    ItemChar flags (x :: q) y rest ↔ escapedChar flags x q = (y, rest) := by
  constructor
  · intro h
    cases h with
    | escaped _ _ hescape => simp [escapedChar, hescape]
    | plain _ _ hplain =>
        cases q with
        | nil => rfl
        | cons z q =>
            rw [escapedChar, if_neg]
            intro hboth
            have hx : x = '\\' := by simpa using (Bool.and_eq_true_iff.mp hboth).1
            rcases hplain hx with hno | hnil
            · simp [hno] at hboth
            · cases hnil
  · intro h
    cases q with
    | nil =>
        obtain ⟨rfl, rfl⟩ := Prod.mk.inj h
        exact .plain x [] fun _ => .inr rfl
    | cons z q =>
        unfold escapedChar at h
        dsimp only at h
        split at h
        · next hboth =>
            obtain ⟨rfl, rfl⟩ := Prod.mk.inj h
            obtain ⟨hx, hescape⟩ := Bool.and_eq_true_iff.mp hboth
            obtain rfl : x = '\\' := by simpa using hx
            exact .escaped z q (by simpa using hescape)
        · next hboth =>
            obtain ⟨rfl, rfl⟩ := Prod.mk.inj h
            refine .plain x (z :: q) fun hx => .inl ?_
            simpa [hx] using hboth

theorem not_itemChar_nil {y : Char} {rest : List Char} : ¬ ItemChar flags [] y rest := nofun

theorem not_bracketItems_nil :
    ¬ BracketItems flags [] items after := by
  intro h
  cases h with
  | range _ hlo => exact not_itemChar_nil hlo
  | single _ hc => exact not_itemChar_nil hc

theorem bracketItems_close_iff :
    BracketItems flags (']' :: q) items after ↔ items = [] ∧ q = after := by
  constructor
  · intro h
    cases h with
    | close => exact ⟨rfl, rfl⟩
    | range hopen => exact absurd rfl hopen
    | single hopen => exact absurd rfl hopen
  · rintro ⟨rfl, rfl⟩
    exact .close q

/-- The first item of a bracket expression is the one the loop reads. -/
theorem bracketItems_cons_iff {x : Char} (hx : x ≠ ']') {items : List (Char × Option Char)} :
    BracketItems flags (x :: q) items after ↔
      ∃ rest, items = ((bracketItem flags x q).lo, (bracketItem flags x q).hi) :: rest ∧
        BracketItems flags (bracketItem flags x q).rest rest after := by
  have hopen : (x :: q).head? ≠ some ']' := fun h => hx (Option.some.inj h)
  constructor
  · intro h
    cases h with
    | close => exact absurd rfl hx
    | @range _ r rest _ lo hi items _ hlo hr hhi hrest =>
        cases r with
        | nil => exact absurd hhi not_itemChar_nil
        | cons y r =>
            have hy : y ≠ ']' := fun hy => hr (congrArg some hy)
            have hitem : bracketItem flags x q = ⟨lo, some hi, rest⟩ := by
              rw [bracketItem, itemChar_iff.mp hlo]
              dsimp only
              rw [rangeEnd_eq_some.mpr ⟨rfl, hy⟩]
              dsimp only
              rw [itemChar_iff.mp hhi]
            rw [hitem]
            exact ⟨items, rfl, hrest⟩
    | @single _ rest _ c items _ hc hrange hrest =>
        have hnone : rangeEnd rest = none := by
          rw [Option.eq_none_iff_forall_ne_some]
          rintro ⟨y, r⟩ hsome
          obtain ⟨rfl, hy⟩ := rangeEnd_eq_some.mp hsome
          rcases hrange _ rfl with hnil | hhead
          · cases hnil
          · exact hy (Option.some.inj hhead)
        have hitem : bracketItem flags x q = ⟨c, none, rest⟩ := by
          rw [bracketItem, itemChar_iff.mp hc]
          dsimp only
          rw [hnone]
        rw [hitem]
        exact ⟨items, rfl, hrest⟩
  · rintro ⟨rest, rfl, hrest⟩
    have hlo : ItemChar flags (x :: q) (escapedChar flags x q).1 (escapedChar flags x q).2 :=
      itemChar_iff.mpr rfl
    unfold bracketItem at hrest ⊢
    dsimp only at hrest ⊢
    split at hrest
    · next y r hrange =>
        obtain ⟨hminus, hy⟩ := rangeEnd_eq_some.mp hrange
        rw [hminus] at hlo
        exact .range hopen hlo (fun h => hy (Option.some.inj h)) (itemChar_iff.mpr rfl) hrest
    · next hrange =>
        refine .single hopen hlo (fun r hr => ?_) hrest
        rw [hr] at hrange
        cases r with
        | nil => exact .inl rfl
        | cons y r =>
            right
            by_contra hy
            exact Option.some_ne_none _ ((rangeEnd_eq_some.mpr
              ⟨rfl, fun h => hy (congrArg some h)⟩).symm.trans hrange)

/-- The loop goes to the end of the bracket expression and finds whether the character is
one of its set. -/
theorem bracketLoop_iff {matched haveChar : Bool}
    (hhave : haveChar = true ∨ q.head? ≠ some ']') :
    bracketLoop flags c q matched haveChar = some (result, after) ↔
      ∃ items, BracketItems flags q items after ∧
        (result = true ↔ matched = true ∨ InItems items c) := by
  fun_induction bracketLoop flags c q matched haveChar with
  | case1 =>
      constructor
      · nofun
      · rintro ⟨items, hitems, -⟩
        exact absurd hitems not_bracketItems_nil
  | case2 q matched =>
      simp only [bracketItems_close_iff, Option.some.injEq, Prod.mk.injEq]
      constructor
      · rintro ⟨rfl, rfl⟩
        exact ⟨[], ⟨rfl, rfl⟩, by simp [InItems]⟩
      · rintro ⟨items, ⟨rfl, rfl⟩, hresult⟩
        refine ⟨?_, rfl⟩
        rw [Bool.eq_iff_iff, hresult]
        simp [InItems]
  | case3 q matched haveChar hno => exact absurd rfl (hhave.resolve_left hno)
  | case4 x q matched haveChar hx item ih =>
      rw [ih (.inl rfl)]
      constructor
      · rintro ⟨items, hitems, hresult⟩
        refine ⟨_, (bracketItems_cons_iff hx).mpr ⟨items, rfl, hitems⟩, ?_⟩
        rw [hresult, Bool.or_eq_true, itemMatches_iff]
        simp [InItems, or_assoc, item]
      · rintro ⟨items, hitems, hresult⟩
        obtain ⟨rest, rfl, hrest⟩ := (bracketItems_cons_iff hx).mp hitems
        refine ⟨rest, hrest, ?_⟩
        rw [hresult, Bool.or_eq_true, itemMatches_iff]
        simp [InItems, or_assoc, item]

theorem bracketBody_leading_iff :
    BracketBody flags (']' :: q) items after ↔
      ∃ rest, items = (']', none) :: rest ∧ BracketItems flags q rest after := by
  constructor
  · intro h
    cases h with
    | leading hitems => exact ⟨_, rfl, hitems⟩
    | plain hopen => exact absurd rfl hopen
  · rintro ⟨rest, rfl, hrest⟩
    exact .leading hrest

theorem bracketBody_plain_iff (hopen : q.head? ≠ some ']')
    {items : List (Char × Option Char)} :
    BracketBody flags q items after ↔ BracketItems flags q items after := by
  constructor
  · intro h
    cases h with
    | leading => exact absurd rfl hopen
    | plain _ hitems => exact hitems
  · exact .plain hopen

theorem bracket_iff {negate : Bool} :
    Bracket flags p negate items after ↔
      negate = (bracketNegated p).1 ∧ BracketBody flags (bracketNegated p).2 items after := by
  unfold bracketNegated
  constructor
  · intro h
    cases h with
    | negated hsign hbody =>
        rcases hsign with rfl | rfl
        · exact ⟨rfl, hbody⟩
        · exact ⟨rfl, hbody⟩
    | positive hsign hbody =>
        split
        · exact absurd rfl hsign.1
        · exact absurd rfl hsign.2
        · exact ⟨rfl, hbody⟩
  · split
    · rintro ⟨rfl, hbody⟩
      exact .negated (.inl rfl) hbody
    · rintro ⟨rfl, hbody⟩
      exact .negated (.inr rfl) hbody
    · next hbang hcaret =>
        rintro ⟨rfl, hbody⟩
        refine .positive ⟨?_, ?_⟩ hbody
        · intro hhead
          obtain ⟨q, rfl⟩ := List.head?_eq_some_iff.mp hhead
          exact hbang q rfl
        · intro hhead
          obtain ⟨q, rfl⟩ := List.head?_eq_some_iff.mp hhead
          exact hcaret q rfl

theorem bracketBody_eq_some_iff :
    bracketBody flags c q = some (result, after) ↔
      ∃ items, BracketBody flags q items after ∧ (result = true ↔ InItems items c) := by
  unfold bracketBody
  split
  · next q =>
      rw [bracketLoop_iff (.inl rfl)]
      constructor
      · rintro ⟨items, hitems, hresult⟩
        refine ⟨_, .leading hitems, ?_⟩
        rw [hresult, beq_iff_eq]
        simp [InItems, InItem]
      · rintro ⟨items, hbody, hresult⟩
        obtain ⟨rest, rfl, hrest⟩ := bracketBody_leading_iff.mp hbody
        refine ⟨rest, hrest, ?_⟩
        rw [hresult, beq_iff_eq]
        simp [InItems, InItem]
  · next hclose =>
      have hopen : q.head? ≠ some ']' := by
        intro hhead
        obtain ⟨q, rfl⟩ := List.head?_eq_some_iff.mp hhead
        exact hclose q rfl
      simp [bracketLoop_iff (.inr hopen), bracketBody_plain_iff hopen]

/-- `match_bracket` finds the end of the bracket expression and whether the character is
one it stands for. -/
theorem matchBracket_iff :
    matchBracket flags p c = some (result, after) ↔
      ∃ negate items, Bracket flags p negate items after ∧
        (result = true ↔ (InItems items c ↔ negate = false)) := by
  unfold matchBracket
  constructor
  · intro h
    obtain ⟨⟨found, after'⟩, hbody, hresult⟩ := Option.map_eq_some_iff.mp h
    obtain ⟨rfl, rfl⟩ := Prod.mk.inj hresult
    obtain ⟨items, hitems, hfound⟩ := bracketBody_eq_some_iff.mp hbody
    refine ⟨_, items, bracket_iff.mpr ⟨rfl, hitems⟩, ?_⟩
    rw [← hfound]
    cases (bracketNegated p).1 <;> simp
  · rintro ⟨negate, items, hbracket, hresult⟩
    obtain ⟨rfl, hbody⟩ := bracket_iff.mp hbracket
    have hloop : bracketBody flags c (bracketNegated p).2 =
        some (if (bracketNegated p).1 then !result else result, after) := by
      rw [bracketBody_eq_some_iff]
      refine ⟨items, hbody, ?_⟩
      cases hsign : (bracketNegated p).1 with
      | false => simpa [hsign] using hresult
      | true =>
          rw [hsign] at hresult
          by_cases hin : InItems items c
          · simp [hin] at hresult ⊢
            exact hresult
          · simp [hin] at hresult ⊢
            exact hresult
    dsimp only
    rw [hloop]
    cases (bracketNegated p).1 <;> simp

/-! ### Matching -/

theorem fnm_one_iff :
    Fnm flags ('?' :: p) before s ↔
      ∃ c s', s = c :: s' ∧ Allowed flags before c ∧ Fnm flags p (some c) s' := by
  constructor
  · intro h
    cases h with
    | one hc hrest => exact ⟨_, _, rfl, hc, hrest⟩
    | itself hc => exact absurd (.inl rfl) hc
  · rintro ⟨c, s', rfl, hc, hrest⟩
    exact .one hc hrest

/-- A star stands for nothing, or for an allowed character and what a star stands for. -/
theorem fnm_star_iff :
    Fnm flags ('*' :: p) before s ↔ Fnm flags p before s ∨
      ∃ c s', s = c :: s' ∧ Allowed flags before c ∧ Fnm flags ('*' :: p) (some c) s' := by
  constructor
  · intro h
    cases h with
    | starNone hrest => exact .inl hrest
    | starMore hc hrest => exact .inr ⟨_, _, rfl, hc, hrest⟩
    | itself hc => exact absurd (.inr (.inl rfl)) hc
  · rintro (hrest | ⟨c, s', rfl, hc, hrest⟩)
    · exact .starNone hrest
    · exact .starMore hc hrest

/-- Consecutive stars are one. -/
theorem fnm_star_star_iff :
    Fnm flags ('*' :: '*' :: p) before s ↔ Fnm flags ('*' :: p) before s := by
  constructor
  · intro h
    induction s generalizing before with
    | nil =>
        rcases fnm_star_iff.mp h with hrest | ⟨c, s', hs, -⟩
        · exact hrest
        · cases hs
    | cons c s ih =>
        rcases fnm_star_iff.mp h with hrest | ⟨_, _, hs, hc, hrest⟩
        · exact hrest
        · obtain ⟨rfl, rfl⟩ := List.cons.inj hs
          exact .starMore hc (ih hrest)
  · exact .starNone

theorem fnm_stars_iff :
    Fnm flags ('*' :: p.dropWhile (· == '*')) before s ↔ Fnm flags ('*' :: p) before s := by
  induction p with
  | nil => rfl
  | cons x p ih =>
      rw [List.dropWhile_cons]
      split
      · next hx =>
          obtain rfl : x = '*' := by simpa using hx
          rw [ih, fnm_star_star_iff]
      · rfl

theorem allowed_of_ne (hslash : c ≠ '/') (hdot : c ≠ '.') :
    Allowed flags before c :=
  ⟨fun h => hslash h.2, fun h => hdot h.2.1⟩

theorem fnm_backslash_iff :
    Fnm flags ('\\' :: p) before s ↔ ∃ s', s = (escapedChar flags '\\' p).1 :: s' ∧
      Fnm flags (escapedChar flags '\\' p).2 (some (escapedChar flags '\\' p).1) s' := by
  constructor
  · intro h
    cases h with
    | escaped hescape hrest =>
        rw [itemChar_iff.mp (.escaped _ _ hescape)]
        exact ⟨_, rfl, hrest⟩
    | backslash hplain hrest =>
        rw [itemChar_iff.mp (.plain _ _ fun _ => hplain)]
        exact ⟨_, rfl, hrest⟩
    | itself hc => exact absurd (.inr (.inr (.inr rfl))) hc
  · rintro ⟨s', rfl, hrest⟩
    have hitem : ItemChar flags ('\\' :: p) (escapedChar flags '\\' p).1
        (escapedChar flags '\\' p).2 := itemChar_iff.mpr rfl
    generalize (escapedChar flags '\\' p).1 = c at hitem hrest ⊢
    generalize (escapedChar flags '\\' p).2 = after at hitem hrest
    cases hitem with
    | escaped _ _ hescape => exact .escaped hescape hrest
    | plain _ _ hplain => exact .backslash (hplain rfl) hrest

theorem fnm_itself_iff (hc : ¬ Special c) :
    Fnm flags (c :: p) before s ↔ ∃ s', s = c :: s' ∧ Fnm flags p (some c) s' := by
  constructor
  · intro h
    cases h with
    | one => exact absurd (.inl rfl) hc
    | starNone => exact absurd (.inr (.inl rfl)) hc
    | starMore => exact absurd (.inr (.inl rfl)) hc
    | bracket => exact absurd (.inr (.inr (.inl rfl))) hc
    | unclosed => exact absurd (.inr (.inr (.inl rfl))) hc
    | escaped => exact absurd (.inr (.inr (.inr rfl))) hc
    | backslash => exact absurd (.inr (.inr (.inr rfl))) hc
    | itself _ hrest => exact ⟨_, rfl, hrest⟩
  · rintro ⟨s', rfl, hrest⟩
    exact .itself hc hrest

/-- The loop of a star tries every way it may end. -/
theorem matchStar_iff {rest : Option Char → List Char → Bool}
    (hrest : ∀ before s, rest before s = true ↔ Fnm flags p before s) :
    (rest before s || matchStar flags rest before s) = true ↔
      Fnm flags ('*' :: p) before s := by
  induction s generalizing before with
  | nil => simp [matchStar, hrest, fnm_star_iff (s := [])]
  | cons c s ih =>
      have hnext : Fnm flags ('*' :: p) before (c :: s) ↔ Fnm flags p before (c :: s) ∨
          Allowed flags before c ∧ Fnm flags ('*' :: p) (some c) s := by
        rw [fnm_star_iff]
        simp
      rw [hnext, Bool.or_eq_true, hrest, matchStar, ← charBlocked_eq_false, ← ih]
      cases charBlocked flags before c <;> simp

theorem matchBracket_eq_none_iff :
    matchBracket flags p c = none ↔
      ∀ negate items after, ¬ Bracket flags p negate items after := by
  rw [Option.eq_none_iff_forall_ne_some]
  constructor
  · intro h negate items after hbracket
    by_cases hin : InItems items c ↔ negate = false
    · exact h (true, after) (matchBracket_iff.mpr ⟨negate, items, hbracket, by simp [hin]⟩)
    · exact h (false, after) (matchBracket_iff.mpr ⟨negate, items, hbracket, by simp [hin]⟩)
  · rintro h ⟨result, after⟩ hsome
    obtain ⟨negate, items, hbracket, -⟩ := matchBracket_iff.mp hsome
    exact h negate items after hbracket

theorem fnm_bracket_iff :
    Fnm flags ('[' :: p) before s ↔ ∃ c s', s = c :: s' ∧ Allowed flags before c ∧
      ((∃ after, matchBracket flags p c = some (true, after) ∧ Fnm flags after (some c) s') ∨
        matchBracket flags p c = none ∧ c = '[' ∧ Fnm flags p (some c) s') := by
  constructor
  · intro h
    cases h with
    | bracket hbracket hc hin hrest =>
        exact ⟨_, _, rfl, hc, .inl ⟨_,
          matchBracket_iff.mpr ⟨_, _, hbracket, by simp [hin]⟩, hrest⟩⟩
    | unclosed hopen hrest =>
        exact ⟨_, _, rfl, allowed_of_ne (by decide) (by decide),
          .inr ⟨matchBracket_eq_none_iff.mpr hopen, rfl, hrest⟩⟩
    | itself hc => exact absurd (.inr (.inr (.inl rfl))) hc
  · rintro ⟨c, s', rfl, hc, ⟨after, hmatch, hrest⟩ | ⟨hnone, rfl, hrest⟩⟩
    · obtain ⟨negate, items, hbracket, hin⟩ := matchBracket_iff.mp hmatch
      exact .bracket hbracket hc (hin.mp rfl) hrest
    · exact .unclosed (matchBracket_eq_none_iff.mp hnone) hrest

theorem matchHere_iff (p : List Char) (before : Option Char) (s : List Char) :
    matchHere flags p before s = true ↔ Fnm flags p before s := by
  fun_induction matchHere flags p before s with
  | case1 before s =>
      rw [List.isEmpty_iff]
      constructor
      · rintro rfl
        exact .done before
      · intro h
        cases h
        rfl
  | case2 p before => simp [fnm_one_iff]
  | case3 p before c s hblocked => simp [fnm_one_iff, ← charBlocked_eq_false, hblocked]
  | case4 p before c s hblocked ih => simp [fnm_one_iff, ← charBlocked_eq_false, hblocked, ih]
  | case5 p before s p' _ ih =>
      rw [← fnm_stars_iff]
      exact matchStar_iff ih
  | case6 p before => simp [fnm_bracket_iff]
  | case7 p before c s hblocked => simp [fnm_bracket_iff, ← charBlocked_eq_false, hblocked]
  | case8 p before s hblocked hbracket ih =>
      simp [fnm_bracket_iff, ← charBlocked_eq_false, hblocked, hbracket, ih]
  | case9 p before c s hblocked hbracket hopen =>
      simp [fnm_bracket_iff, hbracket, hopen]
  | case10 p before c s hblocked after hbracket ih =>
      simp [fnm_bracket_iff, ← charBlocked_eq_false, hblocked, hbracket, ih]
  | case11 p before c s hblocked matched after hbracket hno =>
      simp [fnm_bracket_iff, hbracket, hno]
  | case12 p before => simp [fnm_backslash_iff]
  | case13 p before q s ih => simp [fnm_backslash_iff, ih, q]
  | case14 p before q c s hne =>
      simp only [fnm_backslash_iff, List.cons.injEq]
      constructor
      · nofun
      · rintro ⟨s', ⟨hc, -⟩, -⟩
        exact absurd hc hne
  | case15 x p before hone hstar hbracket hbackslash =>
      rw [fnm_itself_iff (by rintro (h | h | h | h) <;> contradiction)]
      simp
  | case16 p before c s hone hstar hbracket hbackslash ih =>
      rw [fnm_itself_iff (by rintro (h | h | h | h) <;> contradiction)]
      simp [ih]
  | case17 x p before hone hstar hbracket hbackslash c s hne =>
      rw [fnm_itself_iff (by rintro (h | h | h | h) <;> contradiction)]
      simp [hne]

theorem fnmatch_some (pattern string : List Char) (flags : FnmFlags) :
    fnmatch (some pattern) (some string) flags = 0 ↔
      matchHere flags pattern none string = true := by
  rw [fnmatch]
  cases matchHere flags pattern none string with
  | true => simp
  | false => simp [fnmNomatch]

/-- `fnmatch` decides the language of its pattern. -/
theorem fnmatch_eq_zero_iff (pattern string : List Char) (flags : FnmFlags) :
    fnmatch (some pattern) (some string) flags = 0 ↔ Fnm flags pattern none string :=
  (fnmatch_some pattern string flags).trans (matchHere_iff pattern none string)

end GlitchedOS
