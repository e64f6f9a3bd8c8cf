/-
Spans that follow one another.  A distance from the start is a distance into one of them,
and a loop that takes one span after the other off the distance finds which.
-/
import GlitchedOS.Lib.Loop
import Mathlib.Algebra.BigOperators.Group.Finset.Basic
import Mathlib.Algebra.Order.BigOperators.Group.Finset

namespace GlitchedOS

/-- One round of the loop: the span at the index is taken off, unless the distance lies
inside it.  A span that has no length is a fault. -/
def spanRound (size : Nat → Option Nat) (at_ : Nat × Nat) : Option (Nat × Nat ⊕ Nat × Nat) :=
  match size at_.2 with
  | none => none
  | some n => if at_.1 < n then some (.inr at_) else some (.inl (at_.1 - n, at_.2 + 1))

namespace Spans

/-- Where the span comes that has `n` others in front of it, from `first` on. -/
def start (length : Nat → Nat) (first n : Nat) : Nat :=
  ∑ i ∈ Finset.range n, length (first + i)

variable {size : Nat → Option Nat} {length : Nat → Nat} {first n m r : Nat}

theorem start_succ : start length first (n + 1) = start length first n + length (first + n) :=
  Finset.sum_range_succ _ n

theorem start_succ_left :
    start length first (n + 1) = length first + start length (first + 1) n := by
  rw [start, Finset.sum_range_succ', Nat.add_comm, start]
  simp only [Nat.add_zero, Nat.add_assoc, Nat.add_comm 1]

theorem start_mono (hle : n ≤ m) : start length first n ≤ start length first m :=
  Finset.sum_le_sum_of_subset (Finset.range_mono hle)

/-- Spans with at least so much length. -/
theorem mul_le_start {least : Nat} (hleast : ∀ i, least ≤ length i) :
    n * least ≤ start length first n := by
  induction n with
  | zero => simp
  | succ n ih =>
      have hlast := hleast (first + n)
      rw [start_succ, Nat.succ_mul]
      omega

theorem start_le_mul {most : Nat} (hmost : ∀ i, length i ≤ most) :
    start length first n ≤ n * most := by
  induction n with
  | zero => simp [start]
  | succ n ih =>
      have hlast := hmost (first + n)
      rw [start_succ, Nat.succ_mul]
      omega

/-- Every distance lies in a span. -/
theorem exists_eq (hpos : ∀ i, 0 < length i) (d : Nat) :
    ∃ n r, d = start length first n + r ∧ r < length (first + n) := by
  induction d with
  | zero => exact ⟨0, 0, rfl, hpos _⟩
  | succ d ih =>
      obtain ⟨n, r, rfl, hr⟩ := ih
      by_cases hlast : r + 1 < length (first + n)
      · exact ⟨n, r + 1, rfl, hlast⟩
      · refine ⟨n + 1, 0, ?_, hpos _⟩
        rw [start_succ]
        omega

/-- The loop finds the span, and how far into it the distance goes. -/
theorem ends (hsize : ∀ i ≤ n, size (first + i) = some (length (first + i)))
    (hr : r < length (first + n)) :
    Loop.Ends (spanRound size) (start length first n + r, first) (r, first + n) := by
  induction n generalizing first with
  | zero =>
      have hfirst := hsize 0 (Nat.le_refl 0)
      rw [Nat.add_zero] at hfirst hr
      refine Loop.Ends.now ?_
      simp [spanRound, hfirst, start, hr]
  | succ n ih =>
      have hfirst := hsize 0 (Nat.zero_le _)
      rw [Nat.add_zero] at hfirst
      have hnext : first + 1 + n = first + (n + 1) := Nat.add_right_comm first 1 n
      have hrest := @ih (first + 1) (fun i hi => by
        have hi := hsize (i + 1) (Nat.succ_le_succ hi)
        rwa [Nat.add_comm i 1, ← Nat.add_assoc] at hi) (by rwa [hnext])
      rw [hnext] at hrest
      refine hrest.of_goes ?_
      rw [start_succ_left, Loop.Goes]
      have hgo : ¬ length first + start length (first + 1) n + r < length first := by omega
      simp only [spanRound, hfirst, if_neg hgo]
      congr 3
      omega

end Spans

end GlitchedOS
