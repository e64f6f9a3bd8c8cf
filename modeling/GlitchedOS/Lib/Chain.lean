/-
Intrusive linked lists.  A list is a start and a pointer from each element to the
next one; `Chain` says which elements it holds, in order.  Pointers are a
function, so a chain that ends holds no element twice.
-/
import Mathlib.Data.List.Basic
import Mathlib.Data.List.Nodup

namespace GlitchedOS

universe u

variable {α : Type u} {next next' : α → Option α} {start : Option α}
variable {before after l : List α} {a p t : α}

/-- The elements met when the pointers are followed from `start` to the end. -/
def Chain (next : α → Option α) : Option α → List α → Prop
  | start, [] => start = none
  | start, a :: rest => start = some a ∧ Chain next (next a) rest

namespace Chain

theorem cons_iff {rest : List α} :
    Chain next start (a :: rest) ↔ start = some a ∧ Chain next (next a) rest :=
  Iff.rfl

theorem unique {l' : List α} (h : Chain next start l)
    (h' : Chain next start l') : l = l' := by
  induction l generalizing start l' with
  | nil =>
      cases l' with
      | nil => rfl
      | cons a rest => cases (show start = none from h).symm.trans h'.1
  | cons a rest ih =>
      cases l' with
      | nil => cases (show start = none from h').symm.trans h.1
      | cons b rest' =>
          obtain rfl := Option.some.inj (h.1.symm.trans h'.1)
          rw [ih h.2 h'.2]

/-- A chain, place by place. -/
theorem iff_getElem? :
    Chain next start l ↔ start = l[0]? ∧ ∀ i a, l[i]? = some a → next a = l[i + 1]? := by
  induction l generalizing start with
  | nil => exact ⟨fun h => ⟨h, fun i a ha => by cases ha⟩, fun h => h.1⟩
  | cons b rest ih =>
      rw [cons_iff, ih]
      constructor
      · rintro ⟨hstart, hfirst, hrest⟩
        refine ⟨hstart, fun i a ha => ?_⟩
        cases i with
        | zero =>
            obtain rfl := Option.some.inj ha
            exact hfirst
        | succ i => exact hrest i a ha
      · rintro ⟨hstart, hnext⟩
        exact ⟨hstart, hnext 0 b rfl, fun i a ha => hnext (i + 1) a ha⟩

/-- The part of a chain from one of its elements on. -/
theorem suffix (h : Chain next start (before ++ a :: after)) :
    Chain next (next a) after := by
  induction before generalizing start with
  | nil => exact h.2
  | cons b before ih => exact ih h.2

theorem nodup (h : Chain next start l) : l.Nodup := by
  induction l generalizing start with
  | nil => exact List.nodup_nil
  | cons a rest ih =>
      refine List.nodup_cons.mpr ⟨fun hmem => ?_, ih h.2⟩
      obtain ⟨before, after, rfl⟩ := List.append_of_mem hmem
      have heq := congrArg List.length (h.2.unique (suffix h.2))
      rw [List.length_append, List.length_cons] at heq
      omega

/-- Pointers outside a chain do not matter. -/
theorem congr (h : Chain next start l)
    (hnext : ∀ a ∈ l, next' a = next a) : Chain next' start l := by
  induction l generalizing start with
  | nil => exact h
  | cons a rest ih =>
      refine ⟨h.1, ?_⟩
      rw [hnext a List.mem_cons_self]
      exact ih h.2 fun b hb => hnext b (List.mem_cons_of_mem a hb)

/-- Another tail behind one of the elements. -/
theorem splice {after' : List α} (h : Chain next start (before ++ a :: after))
    (hnext : ∀ b ∈ before, next' b = next b)
    (htail : Chain next' (next' a) after') :
    Chain next' start (before ++ a :: after') := by
  induction before generalizing start with
  | nil => exact ⟨h.1, htail⟩
  | cons b before ih =>
      refine ⟨h.1, ?_⟩
      rw [hnext b List.mem_cons_self]
      exact ih h.2 fun c hc => hnext c (List.mem_cons_of_mem b hc)

/-- The elements around one of the chain are not it. -/
theorem ne_of_split (h : Chain next start (before ++ a :: after)) :
    (∀ b ∈ before, b ≠ a) ∧ ∀ b ∈ after, b ≠ a := by
  have hnodup := h.nodup
  rw [List.nodup_append, List.nodup_cons] at hnodup
  obtain ⟨-, ⟨hafter, -⟩, hbefore⟩ := hnodup
  refine ⟨fun b hb => hbefore b hb a List.mem_cons_self, fun b hb heq => ?_⟩
  exact hafter (heq ▸ hb)

/-- A chain does not start with an element that has one in front of it. -/
theorem start_ne (h : Chain next start (before ++ p :: t :: after)) : start ≠ some t := by
  rintro rfl
  have hsplit : before ++ p :: t :: after = (before ++ [p]) ++ t :: after := by simp
  rw [hsplit] at h
  have hne := h.ne_of_split.1
  cases before with
  | nil => exact hne p (by simp) (Option.some.inj h.1).symm
  | cons c before => exact hne c (by simp) (Option.some.inj h.1).symm

/-- A new element behind `p`. -/
theorem insert_after {new : α} (h : Chain next start (before ++ p :: after))
    (hp : next' p = some new) (hnew : next' new = next p)
    (hnext : ∀ a ∈ before ++ after, next' a = next a) :
    Chain next' start (before ++ p :: new :: after) := by
  refine h.splice (fun b hb => hnext b (List.mem_append_left _ hb)) ⟨hp, ?_⟩
  rw [hnew]
  exact h.suffix.congr fun a ha => hnext a (List.mem_append_right _ ha)

/-- The element behind `p` taken out. -/
theorem remove_after (h : Chain next start (before ++ p :: t :: after))
    (hp : next' p = next t) (hnext : ∀ a ∈ before ++ after, next' a = next a) :
    Chain next' start (before ++ p :: after) := by
  refine h.splice (fun b hb => hnext b (List.mem_append_left _ hb)) ?_
  rw [hp]
  exact h.suffix.2.congr fun a ha => hnext a (List.mem_append_right _ ha)

end Chain

/-- The elements met when the pointers are followed from `start` to `stop`. -/
def Segment (next : α → Option α) : Option α → List α → Option α → Prop
  | start, [], stop => start = stop
  | start, a :: rest, stop => start = some a ∧ Segment next (next a) rest stop

namespace Segment

variable {stop : Option α}

theorem chain (h : Segment next start l none) :
    Chain next start l := by
  induction l generalizing start with
  | nil => exact h
  | cons a rest ih => exact ⟨h.1, ih h.2⟩

/-- Pointers outside a segment do not matter. -/
theorem congr (h : Segment next start l stop)
    (hnext : ∀ a ∈ l, next' a = next a) : Segment next' start l stop := by
  induction l generalizing start with
  | nil => exact h
  | cons a rest ih =>
      refine ⟨h.1, ?_⟩
      rw [hnext a List.mem_cons_self]
      exact ih h.2 fun b hb => hnext b (List.mem_cons_of_mem a hb)

/-- The element behind `p` taken out. -/
theorem remove_after (h : Segment next start (before ++ p :: t :: after) stop)
    (hp : next' p = next t) (hnext : ∀ a ∈ before ++ after, next' a = next a) :
    Segment next' start (before ++ p :: after) stop := by
  induction before generalizing start with
  | nil =>
      refine ⟨h.1, ?_⟩
      rw [hp]
      exact h.2.2.congr hnext
  | cons b before ih =>
      refine ⟨h.1, ?_⟩
      rw [hnext b List.mem_cons_self]
      exact ih h.2 fun a ha => hnext a (List.mem_cons_of_mem b ha)

/-- The pointer of each element leads to the next one. -/
theorem next_eq (h : Segment next start (before ++ p :: t :: after) stop) :
    next p = some t := by
  induction before generalizing start with
  | nil => exact h.2.1
  | cons b before ih => exact ih h.2

end Segment

end GlitchedOS
