/-
The environment of a process: `getenv`, `setenv` and `putenv` on the array of pointers that
`environ` points to.  The array is first the one that the kernel built on the stack, and
after the first call a copy on the heap.
-/
import GlitchedOS.Error
import Mathlib.Data.List.Basic

namespace GlitchedOS

/-- The array that `environ` points to, up to the end of its memory, with `none` for a null
pointer; `environ_copied`; and `errno`. -/
structure Environ where
  slots : List (Option (List Char))
  copied : Bool
  errno : Int

/-- `strncmp(s, t, n) == 0` -/
def strncmpZero : List Char → List Char → Nat → Bool
  | _, _, 0 => true
  | [], [], _ + 1 => true
  | a :: s, b :: t, n + 1 => a == b && strncmpZero s t n
  | _, _, _ + 1 => false

/-- The loop over the array: where it ends, with the entry that passes the test or at the
null pointer.  Without a null pointer it leaves the array, which is no result. -/
def findEntry (test : List Char → Bool) :
    Nat → List (Option (List Char)) → Option (Nat × Option (List Char))
  | _, [] => none
  | index, none :: _ => some (index, none)
  | index, some entry :: rest =>
    if test entry then some (index, some entry) else findEntry test (index + 1) rest

/-- The test of `getenv` and `setenv`. -/
def entryOf (name entry : List Char) : Bool :=
  strncmpZero entry name name.length && entry[name.length]? == some '='

/-- The part of a string in front of its first equals sign. -/
def nameOf (string : List Char) : List Char := string.takeWhile (· != '=')

namespace Environ

variable (env : Environ)

def getenv (name : List Char) : Option (Option (List Char)) := do
  let (_, found) ← findEntry (entryOf name) 0 env.slots
  return found.map (List.drop (name.length + 1))

/-- `__copy_environment`, with one null pointer more behind the copy. -/
def copyEnvironment : Option Environ := do
  let (last, _) ← findEntry (fun _ => false) 0 env.slots
  return { env with slots := env.slots.take (last + 1) ++ [none], copied := true }

def copyOnce : Option Environ := if env.copied then some env else env.copyEnvironment

/-- `realloc` of the array to `n` pointers; `junk` is what new memory holds. -/
def realloc (junk : Nat → Option (List Char)) (slots : List (Option (List Char))) (n : Nat) :
    List (Option (List Char)) :=
  slots.take n ++ (List.range (n - slots.length)).map junk

/-- A new entry at the null pointer, and a new null pointer behind it. -/
def append (junk : Nat → Option (List Char)) (index : Nat) (string : List Char) : Environ :=
  { env with
    slots := ((realloc junk env.slots (index + 2)).set index (some string)).set (index + 1)
      none }

def setenv (junk : Nat → Option (List Char)) (name value : List Char) (overwrite : Bool) :
    Option (Environ × Int) := do
  let env ← env.copyOnce
  if '=' ∈ name then return ({ env with errno := -eInval }, -1)
  let string := name ++ '=' :: value
  match ← findEntry (entryOf name) 0 env.slots with
  | (index, some _) =>
    if !overwrite then return (env, 0)
    return ({ env with slots := env.slots.set index (some string) }, 0)
  | (index, none) => return (env.append junk index string, 0)

def putenv (junk : Nat → Option (List Char)) (string : List Char) :
    Option (Environ × Int) := do
  let env ← env.copyOnce
  if '=' ∉ string ∨ string.head? = some '=' then return ({ env with errno := -eInval }, -1)
  let nlen := (nameOf string).length
  match ← findEntry (fun entry => strncmpZero entry string (nlen + 1)) 0 env.slots with
  | (index, some _) => return ({ env with slots := env.slots.set index (some string) }, 0)
  | (index, none) => return (env.append junk index string, 0)

end Environ

/-- The calls that change the environment. -/
inductive EnvCall where
  | setenv (name value : List Char) (overwrite : Bool)
  | putenv (string : List Char)
deriving DecidableEq, Repr

def EnvCall.run (junk : Nat → Option (List Char)) (env : Environ) :
    EnvCall → Option (Environ × Int)
  | .setenv name value overwrite => env.setenv junk name value overwrite
  | .putenv string => env.putenv junk string

def runEnvCalls (junk : Nat → Option (List Char)) : Environ → List EnvCall → Option Environ
  | env, [] => some env
  | env, call :: calls => do
    let (env, _) ← call.run junk env
    runEnvCalls junk env calls

/-! ### Entries -/

/-- The entry is one for the name. -/
def HasName (name entry : List Char) : Prop := name ++ ['='] <+: entry

instance (name entry : List Char) : Decidable (HasName name entry) :=
  inferInstanceAs (Decidable (_ <+: _))

theorem strncmpZero_iff {s t : List Char} {n : Nat} (hn : n ≤ t.length) :
    strncmpZero s t n = true ↔ t.take n <+: s := by
  induction t generalizing s n with
  | nil =>
      obtain rfl : n = 0 := Nat.le_zero.mp hn
      cases s <;> simp [strncmpZero]
  | cons b t ih =>
      cases n with
      | zero => cases s <;> simp [strncmpZero]
      | succ n =>
          cases s with
          | nil => simp [strncmpZero]
          | cons a s =>
              simp only [strncmpZero, Bool.and_eq_true, beq_iff_eq, List.take_succ_cons,
                List.cons_prefix_cons, ih (Nat.le_of_succ_le_succ hn)]
              rw [eq_comm]

theorem entryOf_iff {name entry : List Char} : entryOf name entry = true ↔ HasName name entry := by
  rw [entryOf, Bool.and_eq_true, strncmpZero_iff (Nat.le_refl _), List.take_length, beq_iff_eq,
    HasName]
  constructor
  · rintro ⟨⟨rest, rfl⟩, hequal⟩
    rw [List.getElem?_append_right (Nat.le_refl _), Nat.sub_self] at hequal
    cases rest with
    | nil => cases hequal
    | cons c rest =>
        obtain rfl : c = '=' := Option.some.inj hequal
        exact ⟨rest, by rw [List.append_assoc, List.singleton_append]⟩
  · rintro ⟨rest, rfl⟩
    simp

theorem HasName.unique {n m entry : List Char} (hn : HasName n entry) (hm : HasName m entry)
    (hequal : '=' ∉ n) (hequal' : '=' ∉ m) : n = m := by
  obtain ⟨v, rfl⟩ := hn
  obtain ⟨w, h⟩ := hm
  induction n generalizing m with
  | nil =>
      cases m with
      | nil => rfl
      | cons c m => simp_all
  | cons a n ih =>
      cases m with
      | nil => simp_all
      | cons c m =>
          simp only [List.cons_append, List.cons.injEq, List.mem_cons, not_or] at h hequal hequal'
          rw [h.1, ih hequal.2 hequal'.2 h.2]

theorem hasName_entry (n v : List Char) : HasName n (n ++ '=' :: v) :=
  ⟨v, by rw [List.append_assoc, List.singleton_append]⟩

theorem nameOf_spec {string : List Char} (hequal : '=' ∈ string) :
    '=' ∉ nameOf string ∧ ∃ v, string = nameOf string ++ '=' :: v := by
  induction string with
  | nil => cases hequal
  | cons c string ih =>
      by_cases hc : c = '='
      · subst hc
        exact ⟨List.not_mem_nil, string, rfl⟩
      · obtain ⟨hname, v, hstring⟩ := ih ((List.mem_cons.mp hequal).resolve_left (Ne.symm hc))
        have hnext : nameOf (c :: string) = c :: nameOf string := by simp [nameOf, hc]
        rw [hnext]
        refine ⟨?_, v, ?_⟩
        · rw [List.mem_cons, not_or]
          exact ⟨Ne.symm hc, hname⟩
        · rw [List.cons_append, ← hstring]

theorem nameOf_append {n : List Char} (hn : '=' ∉ n) (v : List Char) :
    nameOf (n ++ '=' :: v) = n := by
  induction n with
  | nil => rfl
  | cons c n ih =>
      rw [List.mem_cons, not_or] at hn
      have hnext : nameOf (c :: (n ++ '=' :: v)) = c :: nameOf (n ++ '=' :: v) := by
        simp [nameOf, Ne.symm hn.1]
      rw [List.cons_append, hnext, ih hn.2]

/-- The array holds the entries, and behind its null pointer whatever it does. -/
def arrayOf (entries : List (List Char)) (behind : List (Option (List Char))) :
    List (Option (List Char)) :=
  entries.map some ++ none :: behind

variable {entries : List (List Char)} {behind : List (Option (List Char))} {index : Nat}
  {n m v string : List Char}

theorem findEntry_arrayOf_none {test : List Char → Bool} (hnone : ∀ e ∈ entries, ¬ test e) :
    findEntry test index (arrayOf entries behind) = some (index + entries.length, none) := by
  induction entries generalizing index with
  | nil => rfl
  | cons e entries ih =>
      have hrest : findEntry test (index + 1) (arrayOf entries behind) = _ :=
        ih fun e he => hnone e (List.mem_cons_of_mem _ he)
      rw [arrayOf, List.map_cons, List.cons_append, findEntry, if_neg (hnone e List.mem_cons_self),
        ← arrayOf, hrest, List.length_cons, Nat.add_right_comm, Nat.add_assoc]

theorem findEntry_arrayOf_some {test : List Char → Bool} {e : List Char}
    {before after : List (List Char)} (hbefore : ∀ e ∈ before, ¬ test e) (he : test e = true) :
    findEntry test index (arrayOf (before ++ e :: after) behind) =
      some (index + before.length, some e) := by
  induction before generalizing index with
  | nil => simp [arrayOf, findEntry, he]
  | cons b before ih =>
      have hrest : findEntry test (index + 1) (arrayOf (before ++ e :: after) behind) = _ :=
        ih fun e he => hbefore e (List.mem_cons_of_mem _ he)
      rw [List.cons_append, arrayOf, List.map_cons, List.cons_append, findEntry,
        if_neg (hbefore b List.mem_cons_self), ← arrayOf, hrest, List.length_cons,
        Nat.add_right_comm, Nat.add_assoc]

theorem first_cases (n : List Char) (entries : List (List Char)) :
    (∀ e ∈ entries, ¬ HasName n e) ∨
      ∃ before e after, entries = before ++ e :: after ∧ (∀ b ∈ before, ¬ HasName n b) ∧
        HasName n e := by
  cases hfind : entries.find? (fun e => HasName n e) with
  | none =>
      left
      simpa using hfind
  | some e =>
      obtain ⟨he, before, after, rfl, hbefore⟩ := List.find?_eq_some_iff_append.mp hfind
      exact .inr ⟨before, e, after, rfl, by simpa using hbefore, by simpa using he⟩

/-! ### What a name stands for -/

def valueOf (n : List Char) (entries : List (List Char)) : Option (List Char) :=
  (entries.find? fun e => HasName n e).map (List.drop (n.length + 1))

/-- The first entry for a name is replaced, or a new one comes last. -/
def putEntry (n string : List Char) : List (List Char) → List (List Char)
  | [] => [string]
  | e :: entries =>
    if HasName n e then string :: entries else e :: putEntry n string entries

theorem putEntry_nil : putEntry n string [] = [string] := rfl

theorem putEntry_cons {e : List Char} : putEntry n string (e :: entries) =
    if HasName n e then string :: entries else e :: putEntry n string entries := rfl

theorem valueOf_putEntry : valueOf n (putEntry n (n ++ '=' :: v) entries) = some v := by
  have hentry := hasName_entry n v
  induction entries with
  | nil => simp [putEntry_nil, valueOf, hentry]
  | cons e entries ih =>
      rw [putEntry_cons]
      split
      · simp [valueOf, hentry]
      · next hno => rwa [valueOf, List.find?_cons_of_neg (by simpa using hno)]

theorem valueOf_putEntry_ne (hm : ¬ HasName m string) (hn : ∀ e, HasName n e → ¬ HasName m e) :
    valueOf m (putEntry n string entries) = valueOf m entries := by
  induction entries with
  | nil => simp [putEntry_nil, valueOf, hm]
  | cons e entries ih =>
      rw [putEntry_cons]
      split
      · next he =>
          rw [valueOf, valueOf, List.find?_cons_of_neg (by simpa using hm),
            List.find?_cons_of_neg (by simpa using hn e he)]
      · by_cases he : HasName m e
        · rw [valueOf, valueOf, List.find?_cons_of_pos (by simpa using he),
            List.find?_cons_of_pos (by simpa using he)]
        · rw [valueOf, valueOf, List.find?_cons_of_neg (by simpa using he),
            List.find?_cons_of_neg (by simpa using he)]
          exact ih

def entryCount (n : List Char) (entries : List (List Char)) : Nat :=
  entries.countP fun e => HasName n e

theorem entryCount_putEntry (hstring : HasName n string) (hpos : entryCount n entries ≠ 0) :
    entryCount n (putEntry n string entries) = entryCount n entries := by
  induction entries with
  | nil => exact absurd rfl hpos
  | cons e entries ih =>
      unfold entryCount at ih hpos ⊢
      rw [putEntry_cons]
      split
      · next he => simp [hstring, he]
      · next he =>
          simp only [List.countP_cons, he, decide_false] at hpos ⊢
          simpa using ih (by simpa using hpos)

theorem entryCount_putEntry_ne (hm : ¬ HasName m string)
    (hn : ∀ e, HasName n e → ¬ HasName m e) :
    entryCount m (putEntry n string entries) = entryCount m entries := by
  induction entries with
  | nil => simp [putEntry_nil, entryCount, hm]
  | cons e entries ih =>
      unfold entryCount at ih ⊢
      rw [putEntry_cons]
      split
      · next he => simp [hm, hn e he]
      · simp [List.countP_cons, ih]

theorem putEntry_of_none (hnone : ∀ e ∈ entries, ¬ HasName n e) :
    putEntry n string entries = entries ++ [string] := by
  induction entries with
  | nil => rfl
  | cons e entries ih =>
      rw [putEntry_cons, if_neg (hnone e List.mem_cons_self),
        ih fun e he => hnone e (List.mem_cons_of_mem _ he)]
      rfl

theorem putEntry_of_some {before after : List (List Char)} {e : List Char}
    (hbefore : ∀ b ∈ before, ¬ HasName n b) (he : HasName n e) :
    putEntry n string (before ++ e :: after) = before ++ string :: after := by
  induction before with
  | nil => exact if_pos he
  | cons b before ih =>
      rw [List.cons_append, putEntry_cons, if_neg (hbefore b List.mem_cons_self),
        ih fun e he => hbefore e (List.mem_cons_of_mem _ he)]
      rfl

theorem valueOf_eq_none (hnone : ∀ e ∈ entries, ¬ HasName n e) : valueOf n entries = none := by
  rw [valueOf, List.find?_eq_none.mpr (by simpa using hnone)]
  rfl

theorem valueOf_of_some {before after : List (List Char)} {e : List Char}
    (hbefore : ∀ b ∈ before, ¬ HasName n b) (he : HasName n e) :
    valueOf n (before ++ e :: after) = some (e.drop (n.length + 1)) := by
  rw [valueOf, List.find?_eq_some_iff_append.mpr
    ⟨by simpa using he, before, after, rfl, by simpa using hbefore⟩]
  rfl

/-! ### Calls on the entries -/

namespace EnvCall

def Fails : EnvCall → Prop
  | .setenv name _ _ => '=' ∈ name
  | .putenv string => '=' ∉ string ∨ string.head? = some '='

instance : DecidablePred Fails
  | .setenv _ _ _ => inferInstanceAs (Decidable (_ ∈ _))
  | .putenv _ => inferInstanceAs (Decidable (_ ∨ _))

def name : EnvCall → List Char
  | .setenv name _ _ => name
  | .putenv string => nameOf string

def entry : EnvCall → List Char
  | .setenv name value _ => name ++ '=' :: value
  | .putenv string => string

/-- The call leaves a variable that is set as it is. -/
def Keeps : EnvCall → Prop
  | .setenv _ _ overwrite => overwrite = false
  | .putenv _ => False

instance : DecidablePred Keeps
  | .setenv _ _ _ => inferInstanceAs (Decidable (_ = _))
  | .putenv _ => inferInstanceAs (Decidable False)

def next (call : EnvCall) (entries : List (List Char)) : List (List Char) :=
  if call.Fails ∨ call.Keeps ∧ valueOf call.name entries ≠ none then entries
  else putEntry call.name call.entry entries

/-- The call asks for a value of a variable, whatever its value is. -/
def Sets (n v : List Char) : EnvCall → Prop
  | .setenv name value overwrite => name = n ∧ value = v ∧ overwrite = true
  | .putenv string => '=' ∉ n ∧ string = n ++ '=' :: v

variable {call : EnvCall}

theorem next_of_fails (hfails : call.Fails) : call.next entries = entries :=
  if_pos (.inl hfails)

theorem next_of_keeps (hkeeps : call.Keeps) (hset : valueOf call.name entries ≠ none) :
    call.next entries = entries :=
  if_pos (.inr ⟨hkeeps, hset⟩)

theorem next_of_put (hfails : ¬ call.Fails)
    (hput : call.Keeps → valueOf call.name entries = none) :
    call.next entries = putEntry call.name call.entry entries := by
  refine if_neg ?_
  rintro (h | ⟨hkeeps, hset⟩)
  · exact hfails h
  · exact hset (hput hkeeps)

theorem entry_eq (hfails : ¬ call.Fails) :
    '=' ∉ call.name ∧ ∃ v, call.entry = call.name ++ '=' :: v := by
  cases call with
  | setenv name value overwrite => exact ⟨hfails, value, rfl⟩
  | putenv string => exact nameOf_spec (not_not.mp fun h => hfails (.inl h))

end EnvCall

namespace Environ

variable {env env' : Environ} {junk : Nat → Option (List Char)}

/-- The environment has these entries in front of its null pointer. -/
def Holds (env : Environ) (entries : List (List Char)) : Prop :=
  ∃ behind, env.slots = arrayOf entries behind

theorem Holds.getenv (h : env.Holds entries) (n : List Char) :
    env.getenv n = some (valueOf n entries) := by
  obtain ⟨behind, hslots⟩ := h
  rw [Environ.getenv, hslots]
  rcases first_cases n entries with hnone | ⟨before, e, after, rfl, hbefore, he⟩
  · rw [findEntry_arrayOf_none fun e he => mt entryOf_iff.mp (hnone e he), valueOf_eq_none hnone]
    rfl
  · rw [findEntry_arrayOf_some (fun b hb => mt entryOf_iff.mp (hbefore b hb))
      (entryOf_iff.mpr he), valueOf_of_some hbefore he]
    rfl

theorem Holds.copyOnce (h : env.Holds entries) :
    ∃ env', env.copyOnce = some env' ∧ env'.Holds entries := by
  obtain ⟨behind, hslots⟩ := h
  unfold Environ.copyOnce
  split
  · exact ⟨env, rfl, behind, hslots⟩
  · have hfind : findEntry (fun _ => false) 0 env.slots = some (0 + entries.length, none) := by
      rw [hslots]
      exact findEntry_arrayOf_none fun _ _ => Bool.false_ne_true
    have hcopy : env.slots.take (0 + entries.length + 1) ++ [none] = arrayOf entries [none] := by
      have hlength : 0 + entries.length + 1 = (entries.map some).length + 1 := by simp
      rw [hslots, arrayOf, arrayOf, hlength, List.take_length_add_append]
      simp
    refine ⟨{ env with slots := env.slots.take (0 + entries.length + 1) ++ [none], copied := true },
      ?_, [none], hcopy⟩
    rw [copyEnvironment, hfind]
    rfl

theorem append_holds (hslots : env.slots = arrayOf entries behind) (string : List Char) :
    (env.append junk entries.length string).Holds (entries ++ [string]) := by
  obtain ⟨x, more, hmore⟩ : ∃ x more,
      realloc junk env.slots (entries.length + 2) = entries.map some ++ none :: x :: more := by
    have hlength : entries.length + 2 = (entries.map some).length + 2 := by simp
    rw [realloc, hslots, arrayOf, hlength, List.take_length_add_append]
    cases behind with
    | nil => exact ⟨junk 0, [], by simp⟩
    | cons b behind => exact ⟨b, [], by simp⟩
  refine ⟨more, ?_⟩
  rw [append, hmore]
  simp [arrayOf]

theorem set_holds {before after : List (List Char)} {e : List Char}
    (hslots : env.slots = arrayOf (before ++ e :: after) behind) (string : List Char) :
    ({ env with slots := env.slots.set before.length (some string) } : Environ).Holds
      (before ++ string :: after) := by
  refine ⟨behind, ?_⟩
  dsimp only
  rw [hslots]
  simp [arrayOf]

/-- The entry is found and replaced, or appended: in both cases it is put. -/
theorem Holds.find_put (h : env.Holds entries) (junk : Nat → Option (List Char))
    (string : List Char) {test : List Char → Bool} (htest : ∀ e, test e = true ↔ HasName n e) :
    (∃ index, findEntry test 0 env.slots = some (index, none) ∧ valueOf n entries = none ∧
        (env.append junk index string).Holds (putEntry n string entries)) ∨
      ∃ index e, findEntry test 0 env.slots = some (index, some e) ∧ valueOf n entries ≠ none ∧
        ({ env with slots := env.slots.set index (some string) } : Environ).Holds
          (putEntry n string entries) := by
  obtain ⟨behind, hslots⟩ := h
  rcases first_cases n entries with hnone | ⟨before, e, after, rfl, hbefore, he⟩
  · left
    refine ⟨entries.length, ?_, valueOf_eq_none hnone, ?_⟩
    · rw [hslots, findEntry_arrayOf_none fun e he => mt (htest e).mp (hnone e he), Nat.zero_add]
    · rw [putEntry_of_none hnone]
      exact append_holds hslots string
  · right
    refine ⟨before.length, e, ?_, ?_, ?_⟩
    · rw [hslots, findEntry_arrayOf_some (fun b hb => mt (htest b).mp (hbefore b hb))
        ((htest e).mpr he), Nat.zero_add]
    · rw [valueOf_of_some hbefore he]
      exact Option.some_ne_none _
    · rw [putEntry_of_some hbefore he]
      exact set_holds hslots string

theorem Holds.fails {call : EnvCall} (h : env.Holds entries) (hfails : call.Fails) :
    ({ env with errno := -eInval } : Environ).Holds (call.next entries) := by
  rw [EnvCall.next_of_fails hfails]
  exact h

theorem Holds.setenv (h : env.Holds entries) (junk : Nat → Option (List Char))
    (name value : List Char) (overwrite : Bool) :
    let call := EnvCall.setenv name value overwrite
    ∃ env', env.setenv junk name value overwrite =
        some (env', if call.Fails then -1 else 0) ∧ env'.Holds (call.next entries) := by
  intro call
  obtain ⟨env', hcopy, h⟩ := h.copyOnce
  rw [Environ.setenv, hcopy]
  by_cases hfails : call.Fails
  · have hequal : '=' ∈ name := hfails
    refine ⟨{ env' with errno := -eInval }, ?_, h.fails hfails⟩
    simp [hequal, hfails]
  · have hequal : '=' ∉ name := hfails
    simp only [if_neg hfails, if_neg hequal]
    have htest : ∀ e, entryOf name e = true ↔ HasName name e := fun e => entryOf_iff
    rcases h.find_put junk (name ++ '=' :: value) htest with
      ⟨index, hfind, hnone, hput⟩ | ⟨index, e, hfind, hsome, hput⟩
    · refine ⟨env'.append junk index (name ++ '=' :: value), by simp [hfind], ?_⟩
      rwa [EnvCall.next_of_put hfails fun _ => hnone]
    · cases overwrite with
      | false =>
          have hkeeps : call.Keeps := rfl
          refine ⟨env', by simp [hfind], ?_⟩
          rwa [EnvCall.next_of_keeps hkeeps hsome]
      | true =>
          refine ⟨{ env' with slots := env'.slots.set index (some (name ++ '=' :: value)) },
            by simp [hfind], ?_⟩
          rwa [EnvCall.next_of_put hfails nofun]

theorem strncmpZero_nameOf {string : List Char} (hequal : '=' ∈ string) (e : List Char) :
    strncmpZero e string ((nameOf string).length + 1) = true ↔ HasName (nameOf string) e := by
  obtain ⟨-, v, hstring⟩ := nameOf_spec hequal
  generalize nameOf string = n at hstring ⊢
  subst hstring
  rw [strncmpZero_iff (by simp), List.take_length_add_append, HasName]
  rfl

theorem Holds.putenv (h : env.Holds entries) (junk : Nat → Option (List Char))
    (string : List Char) :
    let call := EnvCall.putenv string
    ∃ env', env.putenv junk string = some (env', if call.Fails then -1 else 0) ∧
      env'.Holds (call.next entries) := by
  intro call
  obtain ⟨env', hcopy, h⟩ := h.copyOnce
  rw [Environ.putenv, hcopy]
  by_cases hfails : call.Fails
  · have hbad : '=' ∉ string ∨ string.head? = some '=' := hfails
    refine ⟨{ env' with errno := -eInval }, ?_, h.fails hfails⟩
    simp [hbad, hfails]
  · have hgood : ¬ ('=' ∉ string ∨ string.head? = some '=') := hfails
    simp only [if_neg hfails, if_neg hgood]
    rcases h.find_put junk string
      (strncmpZero_nameOf (not_not.mp fun hno => hgood (.inl hno))) with
      ⟨index, hfind, -, hput⟩ | ⟨index, e, hfind, -, hput⟩
    · refine ⟨env'.append junk index string, by simp [hfind], ?_⟩
      rwa [EnvCall.next_of_put hfails nofun]
    · refine ⟨{ env' with slots := env'.slots.set index (some string) }, by simp [hfind], ?_⟩
      rwa [EnvCall.next_of_put hfails nofun]

theorem Holds.run (h : env.Holds entries) (junk : Nat → Option (List Char))
    (call : EnvCall) :
    ∃ env', call.run junk env = some (env', if call.Fails then -1 else 0) ∧
      env'.Holds (call.next entries) := by
  cases call with
  | setenv name value overwrite => exact h.setenv junk name value overwrite
  | putenv string => exact h.putenv junk string

end Environ

/-! ### The map -/

/-- The entries in front of the first null pointer. -/
def entriesOf : List (Option (List Char)) → List (List Char)
  | some e :: rest => e :: entriesOf rest
  | _ => []

theorem entriesOf_arrayOf : entriesOf (arrayOf entries behind) = entries := by
  induction entries with
  | nil => rfl
  | cons e entries ih =>
      rw [arrayOf, List.map_cons, List.cons_append, entriesOf, ← arrayOf, ih]

namespace EnvCall

variable {call : EnvCall}

theorem valueOf_next_ne (hm : '=' ∉ m) (hne : m ≠ call.name) :
    valueOf m (call.next entries) = valueOf m entries := by
  rw [next]
  split
  · rfl
  · next hnext =>
      obtain ⟨hname, v, hentry⟩ := entry_eq fun hfails => hnext (.inl hfails)
      have hother : ∀ e, HasName call.name e → ¬ HasName m e :=
        fun e h h' => hne (h'.unique h hm hname)
      exact valueOf_putEntry_ne (hother _ (hentry ▸ hasName_entry call.name v)) hother

theorem entryCount_next (hm : '=' ∉ m) (hpos : entryCount m entries ≠ 0) :
    entryCount m (call.next entries) = entryCount m entries := by
  rw [next]
  split
  · rfl
  · next hnext =>
      obtain ⟨hname, v, hentry⟩ := entry_eq fun hfails => hnext (.inl hfails)
      have hown : HasName call.name call.entry := hentry ▸ hasName_entry call.name v
      by_cases heq : m = call.name
      · rw [heq] at hpos ⊢
        exact entryCount_putEntry hown hpos
      · have hother : ∀ e, HasName call.name e → ¬ HasName m e :=
          fun e h h' => heq (h'.unique h hm hname)
        exact entryCount_putEntry_ne (hother _ hown) hother

theorem valueOf_next_sets (hsets : call.Sets n v) (hfails : ¬ call.Fails) :
    valueOf n (call.next entries) = some v := by
  cases call with
  | setenv name value overwrite =>
      obtain ⟨rfl, rfl, rfl⟩ := hsets
      rw [next_of_put hfails nofun]
      exact valueOf_putEntry
  | putenv string =>
      obtain ⟨hn, rfl⟩ := hsets
      rw [next_of_put hfails nofun]
      have hname : (EnvCall.putenv (n ++ '=' :: v)).name = n := nameOf_append hn v
      rw [hname]
      exact valueOf_putEntry

/-- The call may change a variable that is set. -/
def Changes (n : List Char) (call : EnvCall) : Prop :=
  call.name = n ∧ ¬ call.Fails ∧ ¬ call.Keeps

theorem valueOf_next_of_not_changes (hn : '=' ∉ n) (hset : valueOf n entries = some v)
    (hchanges : ¬ call.Changes n) : valueOf n (call.next entries) = some v := by
  by_cases hname : call.name = n
  · by_cases hfails : call.Fails
    · rwa [next_of_fails hfails]
    · have hkeeps : call.Keeps := not_not.mp fun h => hchanges ⟨hname, hfails, h⟩
      rwa [next_of_keeps hkeeps (by rw [hname, hset]; exact Option.some_ne_none v)]
  · rwa [valueOf_next_ne hn (Ne.symm hname)]

end EnvCall

namespace Environ

variable {env env' : Environ} {junk : Nat → Option (List Char)}

theorem Holds.entriesOf (h : env.Holds entries) : entriesOf env.slots = entries := by
  obtain ⟨behind, hslots⟩ := h
  rw [hslots, entriesOf_arrayOf]

theorem Holds.terminated (h : env.Holds entries) : none ∈ env.slots := by
  obtain ⟨behind, hslots⟩ := h
  rw [hslots, arrayOf]
  simp

theorem Holds.runEnvCalls (h : env.Holds entries) (junk : Nat → Option (List Char))
    (calls : List EnvCall) :
    ∃ env', runEnvCalls junk env calls = some env' ∧
      env'.Holds (calls.foldl (fun entries call => call.next entries) entries) := by
  induction calls generalizing env entries with
  | nil => exact ⟨env, rfl, h⟩
  | cons call calls ih =>
      obtain ⟨env₁, hrun, h₁⟩ := h.run junk call
      obtain ⟨env', hruns, h'⟩ := ih h₁
      refine ⟨env', ?_, h'⟩
      rw [GlitchedOS.runEnvCalls, hrun]
      exact hruns

end Environ

theorem valueOf_foldl (hn : '=' ∉ n) (hset : valueOf n entries = some v)
    {calls : List EnvCall} (hcalls : ∀ c ∈ calls, ¬ c.Changes n) :
    valueOf n (calls.foldl (fun entries call => call.next entries) entries) = some v := by
  induction calls generalizing entries with
  | nil => exact hset
  | cons call calls ih =>
      exact ih (EnvCall.valueOf_next_of_not_changes hn hset (hcalls call List.mem_cons_self))
        fun c hc => hcalls c (List.mem_cons_of_mem _ hc)

/-- A call on the environment as a map: what it sets, and what it leaves as it is. -/
structure MapStep (call : EnvCall) (env env' : Environ) (result : Int) : Prop where
  terminated : none ∈ env'.slots
  succeeds : ¬ call.Fails → result = 0
  failed : result ≠ 0 → ∀ m, env'.getenv m = env.getenv m
  sets : ∀ n v, call.Sets n v → result = 0 → env'.getenv n = some (some v)
  keeps : ∀ n v w, call = .setenv n v false → env.getenv n = some (some w) →
    ∀ m, env'.getenv m = env.getenv m
  others : ∀ m, '=' ∉ m → m ≠ call.name → env'.getenv m = env.getenv m
  single : ∀ m, '=' ∉ m → entryCount m (entriesOf env.slots) ≠ 0 →
    entryCount m (entriesOf env'.slots) = entryCount m (entriesOf env.slots)

theorem mapStep {env env' : Environ} {call : EnvCall} {entries : List (List Char)}
    (h : env.Holds entries) (h' : env'.Holds (call.next entries)) :
    MapStep call env env' (if call.Fails then -1 else 0) where
  terminated := h'.terminated
  succeeds hfails := if_neg hfails
  failed hresult m := by
    have hfails : call.Fails := not_not.mp fun hno => hresult (if_neg hno)
    rw [h.getenv, h'.getenv, EnvCall.next_of_fails hfails]
  sets n v hsets hresult := by
    have hfails : ¬ call.Fails := by
      intro hfails
      rw [if_pos hfails] at hresult
      cases hresult
    rw [h'.getenv, EnvCall.valueOf_next_sets hsets hfails]
  keeps n v w hcall hset m := by
    subst hcall
    rw [h.getenv] at hset
    have hkeeps : (EnvCall.setenv n v false).Keeps := rfl
    have hvalue : valueOf n entries ≠ none := by
      rw [Option.some.inj hset]
      exact Option.some_ne_none w
    rw [h.getenv, h'.getenv, EnvCall.next_of_keeps hkeeps hvalue]
  others m hm hne := by rw [h.getenv, h'.getenv, EnvCall.valueOf_next_ne hm hne]
  single m hm hpos := by
    rw [h.entriesOf] at hpos ⊢
    rw [h'.entriesOf, EnvCall.entryCount_next hm hpos]

/-- The environment is a map: behind every sequence of calls, every call sets and keeps what
it should, and what it has set stays until a call changes it. -/
theorem environment_is_map (junk : Nat → Option (List Char)) (entries : List (List Char))
    (behind : List (Option (List Char))) (errno : Int) (calls : List EnvCall) :
    ∃ env, runEnvCalls junk ⟨entries.map some ++ none :: behind, false, errno⟩ calls = some env ∧
      none ∈ env.slots ∧
      ∀ call, ∃ env' result, call.run junk env = some (env', result) ∧
        MapStep call env env' result ∧
        ∀ n v later, call.Sets n v → result = 0 → (∀ c ∈ later, ¬ c.Changes n) →
          ∃ env'', runEnvCalls junk env' later = some env'' ∧ env''.getenv n = some (some v) := by
  have hstart : (⟨entries.map some ++ none :: behind, false, errno⟩ : Environ).Holds entries :=
    ⟨behind, rfl⟩
  obtain ⟨env, hrun, h⟩ := hstart.runEnvCalls junk calls
  refine ⟨env, hrun, h.terminated, fun call => ?_⟩
  obtain ⟨env', hcall, h'⟩ := h.run junk call
  refine ⟨env', _, hcall, mapStep h h', ?_⟩
  intro n v later hsets hresult hlater
  obtain ⟨env'', hruns, h''⟩ := h'.runEnvCalls junk later
  have hfails : ¬ call.Fails := by
    intro hfails
    rw [if_pos hfails] at hresult
    cases hresult
  have hn : '=' ∉ n := by
    cases call with
    | setenv name value overwrite => exact hsets.1 ▸ hfails
    | putenv string => exact hsets.1
  refine ⟨env'', hruns, ?_⟩
  rw [h''.getenv, valueOf_foldl hn (EnvCall.valueOf_next_sets hsets hfails) hlater]

end GlitchedOS
