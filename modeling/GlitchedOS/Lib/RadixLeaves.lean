/-
How often a tree maps a frame, told from the words its paths end in.  A frame that is
counted is the target of some path, and one that no two paths lead to is counted once.
-/
import GlitchedOS.Lib.RadixForest

namespace GlitchedOS

namespace Radix

open Finset

variable {F W : Type} (fmt : Format F W)
variable {m m' : F → Nat → W} {t f : F} {h i : Nat}

/-- No two paths of the tree of height `h` at `t` end in words with the same target. -/
def Single (m : F → Nat → W) (h : Nat) (t : F) : Prop :=
  ∀ p q e e', (∀ k, p k < fmt.width k) → (∀ k, q k < fmt.width k) →
    leafWord fmt m p h t = some e → leafWord fmt m q h t = some e' →
    fmt.target e = fmt.target e' → ∀ j, 0 < j → j ≤ h → p j = q j

/-- A tree keeps its targets apart when its paths lead where those of such a tree do. -/
theorem Single.mono {t' : F} (hs : Single fmt m h t)
    (hsub : ∀ p e', (∀ k, p k < fmt.width k) → leafWord fmt m' p h t' = some e' →
      ∃ e, leafWord fmt m p h t = some e ∧ fmt.target e = fmt.target e') :
    Single fmt m' h t' := by
  intro p q e e' hp hq hpe hqe heq
  obtain ⟨e₁, hpe₁, htarget₁⟩ := hsub p e hp hpe
  obtain ⟨e₂, hqe₂, htarget₂⟩ := hsub q e' hq hqe
  exact hs p q e₁ e₂ hp hq hpe₁ hqe₂ (by rw [htarget₁, htarget₂, heq])

/-- One path led to a target that no other path leads to. -/
theorem Single.set {p₀ : Nat → Nat} {e₀ : W} (hs : Single fmt m h t)
    (hself : ∀ p, (∀ j, 0 < j → j ≤ h → p j = p₀ j) →
      leafWord fmt m' p h t = some e₀)
    (hother : ∀ p, (∀ k, p k < fmt.width k) → ¬ (∀ j, 0 < j → j ≤ h → p j = p₀ j) →
      leafWord fmt m' p h t = leafWord fmt m p h t)
    (hfresh : ∀ p e, (∀ k, p k < fmt.width k) → ¬ (∀ j, 0 < j → j ≤ h → p j = p₀ j) →
      leafWord fmt m p h t = some e → fmt.target e ≠ fmt.target e₀) :
    Single fmt m' h t := by
  intro p q e e' hp hq hpe hqe heq
  by_cases hpath : ∀ j, 0 < j → j ≤ h → p j = p₀ j
  · rw [hself p hpath] at hpe
    obtain rfl := Option.some.inj hpe
    by_cases hqath : ∀ j, 0 < j → j ≤ h → q j = p₀ j
    · intro j hlo hhi
      rw [hpath j hlo hhi, hqath j hlo hhi]
    · rw [hother q hq hqath] at hqe
      exact absurd heq.symm (hfresh q e' hq hqath hqe)
  · rw [hother p hp hpath] at hpe
    by_cases hqath : ∀ j, 0 < j → j ≤ h → q j = p₀ j
    · rw [hself q hqath] at hqe
      obtain rfl := Option.some.inj hqe
      exact absurd heq (hfresh p e hp hpath hpe)
    · rw [hother q hq hqath] at hqe
      exact hs p q e e' hp hq hpe hqe heq

/-- The path through word `i` of a table and on along `p`. -/
theorem leafWord_update {p : Nat → Nat} (hpres : fmt.present (m t i) = true) :
    leafWord fmt m (Function.update p (h + 2) i) (h + 2) t =
      leafWord fmt m p (h + 1) (fmt.target (m t i)) := by
  rw [leafWord_succ, Function.update_self, if_pos hpres]
  exact leafWord_path_congr fmt fun j _ hj => Function.update_of_ne (by omega) ..

/-- Below a table that keeps its targets apart so does each tree it links to. -/
theorem Single.below (hs : Single fmt m (h + 2) t) (hi : i < fmt.width (h + 2))
    (hpres : fmt.present (m t i) = true) :
    Single fmt m (h + 1) (fmt.target (m t i)) := by
  intro p q e e' hp hq hpe hqe heq j hlo hhi
  rw [← leafWord_update fmt hpres] at hpe hqe
  have hsame := hs _ _ e e' (inRange_update fmt hp hi) (inRange_update fmt hq hi) hpe hqe
    heq j hlo (by omega)
  rwa [Function.update_of_ne (by omega), Function.update_of_ne (by omega)] at hsame

variable [DecidableEq F]

theorem leafCount_succ (m : F → Nat → W) (h : Nat) (t f : F) :
    leafCount fmt m (h + 1) t f = ∑ i ∈ range (fmt.width (h + 1)),
      if fmt.present (m t i) then leafCount fmt m h (fmt.target (m t i)) f else 0 := by
  rw [leafCount, weight_succ, Nat.zero_add]
  rfl

/-- A frame that is counted is counted behind some word. -/
theorem exists_word_of_leafCount_pos (hpos : 0 < leafCount fmt m (h + 1) t f) :
    ∃ i < fmt.width (h + 1), fmt.present (m t i) = true ∧
      0 < leafCount fmt m h (fmt.target (m t i)) f := by
  rw [leafCount_succ] at hpos
  obtain ⟨i, hi, hne⟩ := exists_ne_zero_of_sum_ne_zero (Nat.ne_of_gt hpos)
  have hpres : fmt.present (m t i) = true := by
    by_contra habs
    exact hne (if_neg habs)
  rw [if_pos hpres] at hne
  exact ⟨i, mem_range.mp hi, hpres, Nat.pos_of_ne_zero hne⟩

/-- A frame counted behind a word is the target of a path through it. -/
theorem exists_leafWord_through (hwidth : ∀ k, 0 < fmt.width k) :
    ∀ {h : Nat} {t : F} {i : Nat}, i < fmt.width (h + 1) → fmt.present (m t i) = true →
      0 < leafCount fmt m h (fmt.target (m t i)) f →
      ∃ p e, (∀ k, p k < fmt.width k) ∧ p (h + 1) = i ∧
        leafWord fmt m p (h + 1) t = some e ∧ fmt.target e = f := by
  intro h
  induction h with
  | zero =>
      intro t i hi hpres hcount
      have htarget : fmt.target (m t i) = f := by
        by_contra hne
        rw [leafCount, weight, if_neg hne] at hcount
        exact Nat.lt_irrefl _ hcount
      refine ⟨Function.update (fun _ => 0) 1 i, m t i, inRange_update fmt hwidth hi,
        Function.update_self .., ?_, htarget⟩
      rw [leafWord_one, Function.update_self, if_pos hpres]
  | succ h ih =>
      intro t i hi hpres hcount
      obtain ⟨j, hj, hpres', hcount'⟩ := exists_word_of_leafCount_pos fmt hcount
      obtain ⟨p, e, hp, -, hword, htarget⟩ := ih hj hpres' hcount'
      refine ⟨Function.update p (h + 2) i, e, inRange_update fmt hp hi,
        Function.update_self .., ?_, htarget⟩
      rw [leafWord_update fmt hpres, hword]

/-- A frame is counted behind one word of such a table at most. -/
theorem Single.word_unique (hwidth : ∀ k, 0 < fmt.width k) (hs : Single fmt m (h + 1) t)
    {j : Nat} (hi : i < fmt.width (h + 1))
    (hj : j < fmt.width (h + 1)) (hpi : fmt.present (m t i) = true)
    (hpj : fmt.present (m t j) = true)
    (hci : 0 < leafCount fmt m h (fmt.target (m t i)) f)
    (hcj : 0 < leafCount fmt m h (fmt.target (m t j)) f) : i = j := by
  obtain ⟨p, e, hp, rfl, hpe, htarget⟩ := exists_leafWord_through fmt hwidth hi hpi hci
  obtain ⟨q, e', hq, rfl, hqe, htarget'⟩ := exists_leafWord_through fmt hwidth hj hpj hcj
  exact hs p q e e' hp hq hpe hqe (by rw [htarget, htarget']) (h + 1) (by omega)
    (Nat.le_refl _)

/-- A frame that no two paths lead to is counted once at most. -/
theorem Single.leafCount_le_one (hwidth : ∀ k, 0 < fmt.width k) :
    ∀ {h : Nat} {t : F}, Single fmt m (h + 1) t → leafCount fmt m (h + 1) t f ≤ 1 := by
  have hstep : ∀ {h : Nat} {t : F}, Single fmt m (h + 1) t →
      (∀ i < fmt.width (h + 1), fmt.present (m t i) = true →
        leafCount fmt m h (fmt.target (m t i)) f ≤ 1) →
      leafCount fmt m (h + 1) t f ≤ 1 := by
    intro h t hs hbelow
    rw [leafCount_succ]
    by_contra hmore
    obtain ⟨i, hi, hne⟩ := exists_ne_zero_of_sum_ne_zero (Nat.ne_of_gt (by omega :
      0 < ∑ i ∈ range (fmt.width (h + 1)), if fmt.present (m t i) then
        leafCount fmt m h (fmt.target (m t i)) f else 0))
    have hpres : fmt.present (m t i) = true := by
      by_contra habs
      exact hne (if_neg habs)
    rw [if_pos hpres] at hne
    -- every other word leads elsewhere
    rw [sum_eq_single i, if_pos hpres] at hmore
    · exact hmore (hbelow i (mem_range.mp hi) hpres)
    · intro j hj hji
      by_contra hne'
      have hpres' : fmt.present (m t j) = true := by
        by_contra habs
        exact hne' (if_neg habs)
      rw [if_pos hpres'] at hne'
      exact hji (hs.word_unique fmt hwidth (mem_range.mp hj) (mem_range.mp hi) hpres' hpres
        (Nat.pos_of_ne_zero hne') (Nat.pos_of_ne_zero hne))
    · intro hout
      exact absurd hi hout
  intro h
  induction h with
  | zero =>
      intro t hs
      apply hstep hs
      intro i _ _
      rw [leafCount, weight]
      split <;> omega
  | succ h ih =>
      intro t hs
      exact hstep hs fun i hi hpres => ih (hs.below fmt hi hpres)

/-- A frame counted by a tree is the target of a word. -/
theorem exists_target_of_leafCount_pos :
    ∀ {h : Nat} {t : F}, 0 < leafCount fmt m (h + 1) t f → ∃ e, fmt.target e = f
  | 0, t, hpos => by
      obtain ⟨i, -, -, hcount⟩ := exists_word_of_leafCount_pos fmt hpos
      refine ⟨m t i, ?_⟩
      by_contra hne
      rw [leafCount, weight, if_neg hne] at hcount
      exact Nat.lt_irrefl _ hcount
  | h + 1, t, hpos => by
      obtain ⟨i, -, -, hcount⟩ := exists_word_of_leafCount_pos fmt hpos
      exact exists_target_of_leafCount_pos hcount

/-- A table of a tree other than its top is the target of a word. -/
theorem exists_target_of_tableCount_pos :
    ∀ {h : Nat} {t : F}, 0 < tableCount fmt m (h + 1) t f → f ≠ t → ∃ e, fmt.target e = f
  | h, t, hpos, hne => by
      rw [tableCount_succ, if_neg (Ne.symm hne), Nat.zero_add] at hpos
      obtain ⟨i, -, hentry⟩ := exists_ne_zero_of_sum_ne_zero (Nat.ne_of_gt hpos)
      rw [entryTableCount, entryWeight] at hentry
      split at hentry
      · by_cases hsame : f = fmt.target (m t i)
        · exact ⟨m t i, hsame.symm⟩
        · cases h with
          | zero => exact absurd rfl hentry
          | succ h => exact exists_target_of_tableCount_pos (Nat.pos_of_ne_zero hentry) hsame
      · exact absurd rfl hentry

omit [DecidableEq F] in
/-- A table with one present word. -/
theorem weight_of_single (α β : F → Nat)
    (hi : i < fmt.width (h + 1)) (hpres : fmt.present (m t i) = true)
    (honly : ∀ j, j ≠ i → fmt.present (m t j) = false) :
    weight fmt m α β (h + 1) t = α t + weight fmt m α β h (fmt.target (m t i)) := by
  rw [weight_succ, sum_eq_single i]
  · rw [entryWeight, if_pos hpres]
  · intro j _ hji
    rw [entryWeight, honly j hji]
    rfl
  · intro hout
    exact absurd (mem_range.mpr hi) hout

/-- Each tree of a forest keeps its targets apart. -/
def Separate (m : F → Nat → W) (trees : List (Nat × F)) : Prop :=
  ∀ x ∈ trees, Single fmt m x.1 x.2

/-- Then a frame is mapped once by each tree at most. -/
theorem Separate.forestLeaves_le (hwidth : ∀ k, 0 < fmt.width k) {m : F → Nat → W}
    {f : F} : ∀ {trees : List (Nat × F)}, Separate fmt m trees → (∀ x ∈ trees, 0 < x.1) →
      forestLeaves fmt m trees f ≤ trees.length
  | [], _, _ => Nat.le_refl _
  | (h + 1, t) :: rest, hs, hheight => by
      have hfirst : leafCount fmt m (h + 1) t f ≤ 1 :=
        (hs (h + 1, t) List.mem_cons_self).leafCount_le_one fmt hwidth
      have hrest := forestLeaves_le hwidth (f := f)
        (fun x hx => hs x (List.mem_cons_of_mem _ hx))
        (fun x hx => hheight x (List.mem_cons_of_mem _ hx))
      rw [forestLeaves_cons, List.length_cons]
      omega
  | (0, t) :: rest, _, hheight => absurd (hheight (0, t) List.mem_cons_self) (Nat.lt_irrefl 0)

end Radix

end GlitchedOS
