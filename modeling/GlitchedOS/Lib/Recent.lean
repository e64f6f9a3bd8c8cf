/-
A ring with the last elements of a walk.  Each step of the walk goes behind the one
before it, and in a full ring over the oldest one.
-/
import Mathlib.Data.Nat.ModEq

namespace GlitchedOS

universe u

variable {α : Type u}

/-- The ring has the last elements of a walk up to its `k`-th, and is blank where the walk
has not come to. -/
structure Recent (size : Nat) (blank : α) (walk : Nat → α) (ring : Nat → α) (k : Nat) :
    Prop where
  kept : ∀ j ≤ k, k < j + size → ring (j % size) = walk j
  unused : ∀ s, k < s → s < size → ring s = blank

namespace Recent

variable {size k : Nat} {blank : α} {walk ring : Nat → α}

/-- Numbers of a window of the size of the ring have cells of their own. -/
theorem cells_apart {i j : Nat} (hlt : i < j) (hwindow : j < i + size) :
    i % size ≠ j % size := by
  intro heq
  have hdvd : size ∣ j - i := (Nat.modEq_iff_dvd' hlt.le).mp heq
  have hle := Nat.le_of_dvd (by omega) hdvd
  omega

theorem start :
    Recent size blank walk (fun i => if i = 0 then walk 0 else blank) 0 where
  kept j hj _ := by
    obtain rfl := Nat.le_zero.mp hj
    exact if_pos (Nat.zero_mod size)
  unused s hs _ := if_neg hs.ne'

theorem push (hrecent : Recent size blank walk ring k) :
    Recent size blank walk (fun i => if i = (k + 1) % size then walk (k + 1) else ring i)
      (k + 1) where
  kept j hj hwindow := by
    rcases Nat.lt_or_ge k j with hlt | hle
    · obtain rfl : j = k + 1 := Nat.le_antisymm hj hlt
      exact if_pos rfl
    · rw [if_neg (cells_apart (Nat.lt_succ_of_le hle) hwindow)]
      exact hrecent.kept j hle (Nat.lt_of_succ_lt hwindow)
  unused s hs hsize := by
    have hnext : k + 1 < size := Nat.lt_trans hs hsize
    rw [if_neg (by rw [Nat.mod_eq_of_lt hnext]; exact hs.ne')]
    exact hrecent.unused s (Nat.lt_of_succ_lt hs) hsize

/-- Behind the newest element is the oldest one of a full ring. -/
theorem oldest (hrecent : Recent size blank walk ring k) (hfull : size ≤ k + 1) (hsize : 0 < size) :
    ring ((k + 1) % size) = walk (k + 1 - size) := by
  have hcell : (k + 1) % size = (k + 1 - size) % size := Nat.mod_eq_sub_mod hfull
  rw [hcell]
  exact hrecent.kept _ (by omega) (by omega)

theorem oldest_unused (hrecent : Recent size blank walk ring k) (hroom : k + 1 < size) :
    ring ((k + 1) % size) = blank := by
  rw [Nat.mod_eq_of_lt hroom]
  exact hrecent.unused (k + 1) (Nat.lt_succ_self k) hroom

/-- The cell in front of the one of an element. -/
theorem cell_back (hsize : 0 < size) (j : Nat) :
    ((j + 1) % size + (size - 1)) % size = j % size := by
  have hfull : j + 1 + (size - 1) = j + size := by omega
  rw [Nat.mod_add_mod, hfull, Nat.add_mod_right]

end Recent

end GlitchedOS
