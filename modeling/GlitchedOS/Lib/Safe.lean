/-
Computations that do not fault.  A computation is safe for a property when it comes to a
result, and the result has the property.
-/
import Mathlib.Init

namespace GlitchedOS

universe u v w

variable {α : Type u} {β : Type u} {ε : Type v} {σ : Type u} {ι : Type w}

/-- The computation comes to a result that has the property. -/
def Safe (post : α → Prop) (m : Except ε α) : Prop := ∃ a, m = .ok a ∧ post a

namespace Safe

variable {post post' : α → Prop} {m : Except ε α} {a : α}

theorem ok (h : post a) : Safe post (.ok a : Except ε α) := ⟨a, rfl, h⟩

theorem mono (h : Safe post m) (himp : ∀ a, post a → post' a) : Safe post' m := by
  obtain ⟨a, ha, hpost⟩ := h
  exact ⟨a, ha, himp a hpost⟩

/-- One computation after another. -/
theorem bind {next : β → Prop} {f : α → Except ε β} (h : Safe post m)
    (hf : ∀ a, post a → Safe next (f a)) : Safe next (m >>= f) := by
  obtain ⟨a, rfl, hpost⟩ := h
  exact hf a hpost

/-- A loop over a list keeps its invariant. -/
theorem foldlM {Inv : σ → Prop} {f : σ → ι → Except ε σ} {l : List ι} {s : σ}
    (hstep : ∀ i ∈ l, ∀ s, Inv s → Safe Inv (f s i)) (h : Inv s) : Safe Inv (l.foldlM f s) := by
  induction l generalizing s with
  | nil => exact ok h
  | cons i rest ih =>
      rw [List.foldlM_cons]
      refine (hstep i List.mem_cons_self s h).bind fun s' hs' => ?_
      exact ih (fun j hj => hstep j (List.mem_cons_of_mem i hj)) hs'

/-- A counting loop: the invariant speaks of the rounds that are over. -/
theorem range (Inv : Nat → σ → Prop) {f : σ → Nat → Except ε σ} {n : Nat} {s : σ}
    (hstep : ∀ i < n, ∀ s, Inv i s → Safe (Inv (i + 1)) (f s i)) (h : Inv 0 s) :
    Safe (Inv n) ((List.range n).foldlM f s) := by
  induction n with
  | zero => exact ok h
  | succ n ih =>
      rw [List.range_succ, List.foldlM_append]
      refine (ih fun i hi => hstep i (Nat.lt_succ_of_lt hi)).bind fun s' hs' => ?_
      rw [List.foldlM_cons]
      exact (hstep n (Nat.lt_succ_self n) s' hs').bind fun s'' hs'' => ok hs''

end Safe

end GlitchedOS
