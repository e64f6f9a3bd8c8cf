/-
A pool of numbered frames with a reference count each.  What a client wants is the
lowest free frame; what an allocator does is search upwards from a hint, which it
moves past every frame it hands out and back to a lower one that falls free.  Every
frame below the hint is then in use, so the search finds what a search from `0` does.
-/
import GlitchedOS.Lib.Run
import Mathlib.Logic.Function.Basic

namespace GlitchedOS

/-- What happens to the count of a frame. -/
inductive PoolAct where
  | take (f : Nat)
  | share (f : Nat)
  | drop (f : Nat)
deriving Repr, DecidableEq

/-- `f` is the lowest of the first `size` frames that is free. -/
def Lowest (size : Nat) (count : Nat → Nat) (f : Nat) : Prop :=
  f < size ∧ count f = 0 ∧ ∀ g < f, count g ≠ 0

/-- The pool as its clients want it: a frame that is taken is the lowest free one. -/
inductive LowestStep (size : Nat) : (Nat → Nat) → PoolAct → (Nat → Nat) → Prop
  | take {count : Nat → Nat} {f : Nat} (hlowest : Lowest size count f) :
      LowestStep size count (.take f) (Function.update count f 1)
  | share {count : Nat → Nat} {f : Nat} (hused : count f ≠ 0) :
      LowestStep size count (.share f) (Function.update count f (count f + 1))
  | drop (count : Nat → Nat) (f : Nat) :
      LowestStep size count (.drop f) (Function.update count f (count f - 1))

theorem LowestStep.lowest {size f : Nat} {count count' : Nat → Nat}
    (hstep : LowestStep size count (.take f) count') : Lowest size count f := by
  cases hstep with
  | take hlowest => exact hlowest

/-- The counts of the first `size` frames, and where the search starts. -/
structure HintPool where
  count : Nat → Nat
  hint : Nat
  size : Nat

namespace HintPool

/-- The hint is right: no frame below it is free. -/
def Right (p : HintPool) : Prop := ∀ f < p.hint, p.count f ≠ 0

/-- The search finds nothing. -/
def Exhausted (p : HintPool) : Prop := ∀ f, p.hint ≤ f → f < p.size → p.count f ≠ 0

theorem Right.full {p : HintPool} (hright : p.Right) (hnone : p.Exhausted) :
    ∀ f < p.size, p.count f ≠ 0 := by
  intro f hf
  by_cases hlow : f < p.hint
  · exact hright f hlow
  · exact hnone f (Nat.le_of_not_lt hlow) hf

end HintPool

/-- The pool with its hint.  A count that is dropped at `0` stays there. -/
inductive HintStep : HintPool → PoolAct → HintPool → Prop
  | take {p : HintPool} {f : Nat} (hlo : p.hint ≤ f) (hlt : f < p.size)
      (hfree : p.count f = 0) (hfirst : ∀ g, p.hint ≤ g → g < f → p.count g ≠ 0) :
      HintStep p (.take f) ⟨Function.update p.count f 1, f + 1, p.size⟩
  | share {p : HintPool} {f : Nat} (hused : p.count f ≠ 0) :
      HintStep p (.share f) ⟨Function.update p.count f (p.count f + 1), p.hint, p.size⟩
  | drop (p : HintPool) (f : Nat) :
      HintStep p (.drop f) ⟨Function.update p.count f (p.count f - 1),
        if p.count f ≤ 1 ∧ f < p.hint then f else p.hint, p.size⟩

namespace HintStep

variable {p q : HintPool} {act : PoolAct}

theorem size_eq (hstep : HintStep p act q) : q.size = p.size := by
  cases hstep <;> rfl

/-- Each step keeps the hint right. -/
theorem right (hstep : HintStep p act q) (hright : p.Right) : q.Right := by
  cases hstep with
  | @take f hlo hlt hfree hfirst =>
      intro g hg
      have hg : g < f + 1 := hg
      change Function.update p.count f 1 g ≠ 0
      by_cases hgf : g = f
      · subst hgf
        rw [Function.update_self]
        decide
      · rw [Function.update_of_ne hgf]
        by_cases hlow : g < p.hint
        · exact hright g hlow
        · exact hfirst g (Nat.le_of_not_lt hlow) (by omega)
  | @share f hused =>
      intro g hg
      change Function.update p.count f _ g ≠ 0
      by_cases hgf : g = f
      · subst hgf
        rw [Function.update_self]
        omega
      · rw [Function.update_of_ne hgf]
        exact hright g hg
  | drop f =>
      intro g hg
      have hg : g < if p.count f ≤ 1 ∧ f < p.hint then f else p.hint := hg
      change Function.update p.count f _ g ≠ 0
      by_cases hgf : g = f
      · subst hgf
        rw [Function.update_self]
        split at hg <;> omega
      · rw [Function.update_of_ne hgf]
        apply hright g
        split at hg <;> omega

/-- With a right hint, the search finds the lowest free frame. -/
theorem lowest (hstep : HintStep p act q) (hright : p.Right) :
    LowestStep p.size p.count act q.count := by
  cases hstep with
  | @take f hlo hlt hfree hfirst =>
      refine .take ⟨hlt, hfree, fun g hg => ?_⟩
      by_cases hlow : g < p.hint
      · exact hright g hlow
      · exact hfirst g (Nat.le_of_not_lt hlow) hg
  | share hused => exact .share hused
  | drop f => exact .drop _ f

end HintStep

/-- A run of the pool with its hint is a run of the pool its clients want. -/
theorem Run.lowest {p q : HintPool} {acts : List PoolAct} (hrun : Run HintStep p acts q)
    (hright : p.Right) : Run (LowestStep p.size) p.count acts q.count ∧ q.Right := by
  induction hrun with
  | nil p => exact ⟨.nil _, hright⟩
  | @cons p next q act rest head tail ih =>
      obtain ⟨hrest, hright'⟩ := ih (head.right hright)
      rw [head.size_eq] at hrest
      exact ⟨.cons (head.lowest hright) hrest, hright'⟩

namespace HintPool

/-- `q` comes of `p` by some steps. -/
def Reaches (p q : HintPool) : Prop := ∃ acts, Run HintStep p acts q

namespace Reaches

variable {p q r : HintPool}

theorem refl (p : HintPool) : p.Reaches p := ⟨[], .nil p⟩

theorem trans (h : p.Reaches q) (h' : q.Reaches r) : p.Reaches r := by
  obtain ⟨acts, hrun⟩ := h
  obtain ⟨acts', hrun'⟩ := h'
  exact ⟨acts ++ acts', hrun.append hrun'⟩

theorem of_step {act : PoolAct} (hstep : HintStep p act q) : p.Reaches q :=
  ⟨[act], .single hstep⟩

theorem size_eq (h : p.Reaches q) : q.size = p.size := by
  obtain ⟨acts, hrun⟩ := h
  exact hrun.invariant (fun r => r.size = p.size)
    (fun _ _ _ hstep hsize => hstep.size_eq.trans hsize) rfl

theorem right (h : p.Reaches q) (hright : p.Right) : q.Right := by
  obtain ⟨acts, hrun⟩ := h
  exact (hrun.lowest hright).2

end Reaches

end HintPool

end GlitchedOS
