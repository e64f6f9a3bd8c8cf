/-
Sums with an end-around carry.  A word is at most `m`; a sum that passes `m` begins again at
one, so that zero and `m` are two words for the same number, and a sum of words is known
from their sum as numbers.
-/
import Mathlib.Algebra.BigOperators.Group.List.Basic
import Mathlib.Data.Nat.ModEq

namespace GlitchedOS

def onesAdd (m a b : Nat) : Nat := if a + b ≤ m then a + b else a + b - m

def onesSum (m : Nat) (words : List Nat) : Nat := words.foldl (onesAdd m) 0

/-- The word a number comes down to. -/
def endAround (m n : Nat) : Nat := if n = 0 then 0 else (n - 1) % m + 1

section OnesComplement

variable {m n a b : Nat} {words : List Nat}

theorem endAround_pos (hn : 0 < n) : endAround m n = (n - 1) % m + 1 :=
  if_neg (Nat.ne_of_gt hn)

theorem endAround_of_le (hn : n ≤ m) : endAround m n = n := by
  rcases Nat.eq_zero_or_pos n with rfl | hpos
  · rfl
  · rw [endAround_pos hpos, Nat.mod_eq_of_lt (by omega)]
    omega

theorem endAround_le (hm : 0 < m) (n : Nat) : endAround m n ≤ m := by
  rcases Nat.eq_zero_or_pos n with rfl | hpos
  · exact Nat.zero_le m
  · rw [endAround_pos hpos]
    exact Nat.mod_lt _ hm

/-- A word as a remainder. -/
theorem endAround_mod (m n : Nat) : endAround m n % m = n % m := by
  rcases Nat.eq_zero_or_pos n with rfl | hpos
  · rfl
  · rw [endAround_pos hpos, Nat.mod_add_mod]
    congr 1
    omega

/-- Two sums other than zero come to the same word when they have the same remainder. -/
theorem endAround_eq_iff (ha : 0 < a) (hb : 0 < b) :
    endAround m a = endAround m b ↔ a % m = b % m := by
  constructor
  · intro heq
    rw [← endAround_mod m a, heq, endAround_mod]
  · intro hmod
    rw [endAround_pos ha, endAround_pos hb]
    congr 1
    have hcong : (a - 1) + 1 ≡ (b - 1) + 1 [MOD m] := by
      rw [Nat.sub_add_cancel ha, Nat.sub_add_cancel hb]
      exact hmod
    exact Nat.ModEq.add_right_cancel' 1 hcong

/-- Numbers smaller than `m` that are added make a difference. -/
theorem endAround_add_inj (ha : a < m) (hb : b < m) :
    endAround m (n + a) = endAround m (n + b) ↔ a = b := by
  constructor
  · intro heq
    have hcong : n + a ≡ n + b [MOD m] := by
      rw [Nat.ModEq, ← endAround_mod m (n + a), heq, endAround_mod]
    exact (Nat.ModEq.add_left_cancel' n hcong).eq_of_lt_of_lt ha hb
  · rintro rfl
    rfl

/-- The carry of a number above a word is added to its low part. -/
theorem endAround_carry (m n : Nat) :
    endAround m (n % (m + 1) + n / (m + 1)) = endAround m n := by
  rcases Nat.eq_zero_or_pos n with rfl | hpos
  · simp
  · have hdiv := Nat.div_add_mod n (m + 1)
    have hsum : 0 < n % (m + 1) + n / (m + 1) := by
      rcases Nat.eq_zero_or_pos (n / (m + 1)) with hzero | hlarge
      · rw [hzero, Nat.mul_zero] at hdiv
        omega
      · omega
    rw [endAround_eq_iff hsum hpos]
    conv_rhs => rw [← hdiv]
    rw [Nat.add_mul, Nat.one_mul, Nat.add_assoc, Nat.mul_add_mod, Nat.add_comm]

theorem onesAdd_endAround (hm : 0 < m) (hb : b ≤ m) :
    onesAdd m (endAround m a) b = endAround m (a + b) := by
  have hle := endAround_le hm a
  rcases Nat.eq_zero_or_pos a with rfl | ha
  · rw [show endAround m 0 = 0 from rfl, onesAdd, Nat.zero_add, if_pos hb, endAround_of_le hb]
  · have hpos : 0 < endAround m a := by
      rw [endAround_pos ha]
      omega
    have hmod : (endAround m a + b) % m = (a + b) % m := by
      rw [Nat.add_mod, endAround_mod, ← Nat.add_mod]
    have hsame : endAround m (endAround m a + b) = endAround m (a + b) :=
      (endAround_eq_iff (by omega) (by omega)).mpr hmod
    rw [← hsame, onesAdd]
    split
    · rename_i hfits
      rw [endAround_of_le hfits]
    · rename_i hcarry
      rw [endAround_pos (n := endAround m a + b) (by omega), Nat.mod_eq_sub_mod (by omega),
        Nat.mod_eq_of_lt (by omega)]
      omega

/-- The sum of words is the word of their sum. -/
theorem onesSum_eq (hm : 0 < m) (hwords : ∀ w ∈ words, w ≤ m) :
    onesSum m words = endAround m words.sum := by
  have hfold : ∀ (words : List Nat) (a : Nat), (∀ w ∈ words, w ≤ m) →
      words.foldl (onesAdd m) (endAround m a) = endAround m (a + words.sum) := by
    intro words
    induction words with
    | nil => simp
    | cons w rest ih =>
        intro a hwords
        rw [List.foldl_cons, onesAdd_endAround hm (hwords w List.mem_cons_self),
          ih (a + w) fun x hx => hwords x (List.mem_cons_of_mem w hx), List.sum_cons,
          Nat.add_assoc]
  have hsum := hfold words 0 hwords
  rw [Nat.zero_add] at hsum
  exact hsum

end OnesComplement

end GlitchedOS
