/-
Doubly linked lists.  Each element points to the next one and back to the one
before it; `Doubly` says which elements a list holds, in order.
-/
import GlitchedOS.Lib.Chain
import Mathlib.Data.List.Induction

namespace GlitchedOS

universe u

variable {α : Type u} {next prev next' prev' : α → Option α} {before start : Option α}

/-- The elements met from `start` to the end, the first of which points back to
`before`. -/
def Doubly (next prev : α → Option α) : Option α → Option α → List α → Prop
  | _, start, [] => start = none
  | before, start, a :: rest =>
    start = some a ∧ prev a = before ∧ Doubly next prev (some a) (next a) rest

namespace Doubly

theorem chain {l : List α} (h : Doubly next prev before start l) : Chain next start l := by
  induction l generalizing before start with
  | nil => exact h
  | cons a rest ih => exact ⟨h.1, ih h.2.2⟩

theorem nodup {l : List α} (h : Doubly next prev before start l) : l.Nodup :=
  h.chain.nodup

theorem start_eq {l : List α} (h : Doubly next prev before start l) : start = l.head? := by
  cases l with
  | nil => exact h
  | cons a rest => exact h.1

/-- Pointers outside a list do not matter. -/
theorem congr {l : List α} (h : Doubly next prev before start l)
    (hnext : ∀ a ∈ l, next' a = next a) (hprev : ∀ a ∈ l, prev' a = prev a) :
    Doubly next' prev' before start l := by
  induction l generalizing before start with
  | nil => exact h
  | cons a rest ih =>
      refine ⟨h.1, (hprev a List.mem_cons_self).trans h.2.1, ?_⟩
      rw [hnext a List.mem_cons_self]
      exact ih h.2.2 (fun b hb => hnext b (List.mem_cons_of_mem a hb))
        fun b hb => hprev b (List.mem_cons_of_mem a hb)

theorem neighbours {a : α} {l r : List α} (h : Doubly next prev none start (l ++ a :: r)) :
    prev a = l.getLast? ∧ next a = r.head? := by
  have hgeneral : ∀ (l : List α) before start, Doubly next prev before start (l ++ a :: r) →
      prev a = (l.getLast?).or before ∧ next a = r.head? := by
    intro l
    induction l with
    | nil =>
        intro before start h
        exact ⟨by simpa using h.2.1, h.2.2.start_eq⟩
    | cons b l ih =>
        intro before start h
        obtain ⟨hprev, hnext⟩ := ih _ _ h.2.2
        refine ⟨?_, hnext⟩
        rw [hprev]
        cases hlast : l.getLast? <;> simp [List.getLast?_cons, hlast]
  simpa using hgeneral l none start h

variable [DecidableEq α]

/-- An element taken out: the one before it points to the one behind it, and
back. -/
theorem remove {a : α} {l r : List α} (h : Doubly next prev before start (l ++ a :: r))
    (hnext : ∀ b ∈ l ++ r, next' b = if l.getLast? = some b then next a else next b)
    (hprev : ∀ b ∈ l ++ r, prev' b = if r.head? = some b then prev a else prev b) :
    Doubly next' prev' before (if l = [] then next a else start) (l ++ r) := by
  have hnodup := h.nodup
  induction l generalizing before start with
  | nil =>
      obtain ⟨-, hbefore, hrest⟩ := h
      cases r with
      | nil => exact hrest
      | cons b r =>
          obtain ⟨hstart, -, hrest⟩ := hrest
          have hb := hprev b List.mem_cons_self
          have hb' := hnext b List.mem_cons_self
          simp only [List.head?_cons, if_pos, List.getLast?_nil, reduceCtorEq, if_false] at hb hb'
          refine ⟨hstart, hb.trans hbefore, ?_⟩
          rw [hb']
          apply hrest.congr
          · intro c hc
            simpa using hnext c (List.mem_cons_of_mem b hc)
          · intro c hc
            have hne : b ≠ c := fun heq => by simp [heq, hc] at hnodup
            simpa [hne] using hprev c (List.mem_cons_of_mem b hc)
  | cons x l ih =>
      obtain ⟨hstart, hbefore, hrest⟩ := h
      rw [List.cons_append, List.nodup_cons] at hnodup
      obtain ⟨hx, hnodup⟩ := hnodup
      have hxprev := hprev x List.mem_cons_self
      have hxnext := hnext x List.mem_cons_self
      have hhead : r.head? ≠ some x := fun hhead =>
        hx (by simp [List.mem_of_mem_head? (Option.mem_def.mpr hhead)])
      rw [if_neg hhead] at hxprev
      have hlast : (x :: l).getLast? = some x ↔ l = [] := by
        cases l using List.reverseRec with
        | nil => simp
        | append_singleton l y =>
            have hne : y ≠ x := fun heq => hx (by simp [heq])
            simpa [List.getLast?_cons] using hne
      refine ⟨hstart, hxprev.trans hbefore, ?_⟩
      have hnew := ih hrest ?_ (fun b hb => hprev b (List.mem_cons_of_mem x hb)) hnodup
      · simp only [hlast] at hxnext
        rw [hxnext]
        exact hnew
      · intro b hb
        rw [hnext b (List.mem_cons_of_mem x hb)]
        cases l using List.reverseRec with
        | nil =>
            have hne : x ≠ b := fun heq => hx (by simpa [heq] using .inr hb)
            simp [hne]
        | append_singleton l y => simp [List.getLast?_cons]

theorem push {new : α} {l : List α} (h : Doubly next prev none start l)
    (hnew : next' new = start) (hfirst : prev' new = none)
    (hnext : ∀ b ∈ l, next' b = next b)
    (hprev : ∀ b ∈ l, prev' b = if start = some b then some new else prev b) :
    Doubly next' prev' none (some new) (new :: l) := by
  refine ⟨rfl, hfirst, ?_⟩
  rw [hnew]
  cases l with
  | nil => exact h
  | cons a rest =>
      have hnodup := h.nodup
      obtain ⟨hstart, -, hrest⟩ := h
      refine ⟨hstart, by rw [hprev a List.mem_cons_self, if_pos hstart], ?_⟩
      rw [hnext a List.mem_cons_self]
      apply hrest.congr (fun b hb => hnext b (List.mem_cons_of_mem a hb))
      intro b hb
      have hne : start ≠ some b := fun heq => by
        obtain rfl := Option.some.inj (hstart.symm.trans heq)
        exact (List.nodup_cons.mp hnodup).1 hb
      rw [hprev b (List.mem_cons_of_mem a hb), if_neg hne]

end Doubly

end GlitchedOS
