/-
How often a table holds a value.  A table is a function on its indices below a
bound; a family of tables is counted index by index and table by table, and both
counts move by one when one entry changes.
-/
import Mathlib.Data.Nat.Count
import Mathlib.Algebra.BigOperators.Group.Finset.Piecewise

namespace GlitchedOS

universe u v

variable {α : Type u} {β : Type v} [DecidableEq α]

/-- How many of the first `n` entries of `f` are `a`. -/
@[irreducible] def tally (n : Nat) (f : Nat → α) (a : α) : Nat :=
  Nat.count (fun i => f i = a) n

theorem tally_zero (f : Nat → α) (a : α) : tally 0 f a = 0 := by
  rw [tally, Nat.count_zero]

theorem tally_succ (n : Nat) (f : Nat → α) (a : α) :
    tally (n + 1) f a = tally n f a + if f n = a then 1 else 0 := by
  rw [tally, tally, Nat.count_succ]

theorem tally_congr {n : Nat} {f g : Nat → α} (a : α)
    (h : ∀ i < n, f i = g i) : tally n f a = tally n g a := by
  induction n with
  | zero => rw [tally_zero, tally_zero]
  | succ n ih =>
      rw [tally_succ, tally_succ, ih fun i hi => h i (Nat.lt_succ_of_lt hi),
        h n (Nat.lt_succ_self n)]

theorem tally_eq_zero_iff {n : Nat} {f : Nat → α} {a : α} :
    tally n f a = 0 ↔ ∀ i < n, f i ≠ a := by
  induction n with
  | zero => exact iff_of_true (tally_zero f a) fun i hi => absurd hi (Nat.not_lt_zero i)
  | succ n ih =>
      rw [tally_succ, Nat.add_eq_zero_iff, ih]
      constructor
      · rintro ⟨hbelow, hlast⟩ i hi heq
        rcases Nat.lt_succ_iff_lt_or_eq.mp hi with hi | rfl
        · exact hbelow i hi heq
        · rw [if_pos heq] at hlast
          exact absurd hlast Nat.one_ne_zero
      · intro h
        refine ⟨fun i hi => h i (Nat.lt_succ_of_lt hi), ?_⟩
        exact if_neg (h n (Nat.lt_succ_self n))

theorem tally_pos {n i : Nat} {f : Nat → α} {a : α} (hi : i < n) (h : f i = a) :
    0 < tally n f a :=
  Nat.pos_of_ne_zero fun hzero => tally_eq_zero_iff.mp hzero i hi h

/-- One entry changes. -/
theorem tally_update {n i : Nat} (f : Nat → α) (a b : α) (hi : i < n) :
    tally n (Function.update f i b) a + (if f i = a then 1 else 0) =
      tally n f a + if b = a then 1 else 0 := by
  induction n with
  | zero => exact absurd hi (Nat.not_lt_zero i)
  | succ n ih =>
      rw [tally_succ, tally_succ]
      rcases Nat.lt_succ_iff_lt_or_eq.mp hi with hi | rfl
      · have hne : n ≠ i := Nat.ne_of_gt hi
        have hold := ih hi
        rw [Function.update_of_ne hne]
        omega
      · have hbelow : tally i (Function.update f i b) a = tally i f a :=
          tally_congr a fun j hj => Function.update_of_ne (Nat.ne_of_lt hj) b f
        rw [Function.update_self, hbelow]
        omega

/-- One table of a family changes. -/
theorem sum_update_swap [DecidableEq β] {γ : Type*} (s : Finset β) (F : γ → Nat)
    (f : β → γ) {i : β} (hi : i ∈ s) (c : γ) :
    ∑ t ∈ s, F (Function.update f i c t) + F (f i) = ∑ t ∈ s, F (f t) + F c := by
  have hpush : ∀ t ∈ s, F (Function.update f i c t) =
      Function.update (fun t => F (f t)) i (F c) t :=
    fun t _ => Function.apply_update (fun _ => F) f i c t
  rw [Finset.sum_congr rfl hpush, Finset.sum_update_of_mem hi,
    Finset.sdiff_singleton_eq_erase]
  have hsplit := Finset.sum_erase_add s (fun t => F (f t)) hi
  omega

end GlitchedOS
