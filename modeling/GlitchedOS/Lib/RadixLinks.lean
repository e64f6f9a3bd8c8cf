/-
Links that are kept.  When each link of one tree is still there in another memory, no
table is lost; two trees whose links are all links of a third, and in which every table
below the top has a present word, are told apart by the words their paths end in only.
-/
import GlitchedOS.Lib.RadixLeaves

namespace GlitchedOS

namespace Radix

open Finset

variable {F W : Type} (fmt : Format F W)
variable {m m' : F → Nat → W} {t f : F} {h i : Nat}

/-- The present words of a table are present in `m'` with the same targets. -/
def Keeps (m m' : F → Nat → W) (f : F) : Prop :=
  ∀ i, fmt.present (m f i) = true →
    fmt.present (m' f i) = true ∧ fmt.target (m' f i) = fmt.target (m f i)

theorem Keeps.refl (m : F → Nat → W) (f : F) : Keeps fmt m m f := fun _ h => ⟨h, rfl⟩

theorem Keeps.trans {m'' : F → Nat → W} (h : Keeps fmt m m' f)
    (h' : Keeps fmt m' m'' f) : Keeps fmt m m'' f := by
  intro i hpres
  obtain ⟨hpres', htarget⟩ := h i hpres
  obtain ⟨hpres'', htarget'⟩ := h' i hpres'
  exact ⟨hpres'', htarget'.trans htarget⟩

theorem Keeps.of_eq (h : m' f = m f) : Keeps fmt m m' f := by
  intro i hpres
  rw [h]
  exact ⟨hpres, rfl⟩

/-- The word at the end of a path depends on the words the path passes only. -/
theorem leafWord_congr_along {p : Nat → Nat} :
    ∀ {h : Nat} {t : F},
      (∀ k d l c, k + 1 + d = h → descend fmt m p (k + 1) d t = some (l, c) →
        m' c (p (k + 1)) = m c (p (k + 1))) →
      leafWord fmt m' p h t = leafWord fmt m p h t
  | 0, _, _ => rfl
  | 1, t, hsame => by
      rw [leafWord_one, leafWord_one, hsame 0 0 [] t rfl rfl]
  | n + 2, t, hsame => by
      rw [leafWord_succ, leafWord_succ, hsame (n + 1) 0 [] t rfl rfl]
      split
      · rename_i hpres
        refine leafWord_congr_along fun k d l c hheight hd =>
          hsame k (d + 1) (m t (p (n + 2)) :: l) c (by omega) ?_
        have hidx : k + 1 + d + 1 = n + 2 := by omega
        rw [descend, hidx, if_pos hpres, hd]
        rfl
      · rfl

section Tables

variable [DecidableEq F]

/-- A write that leaves a link alone. -/
theorem keeps_write {e : W} (h : fmt.present (m t i) = true →
      fmt.present e = true ∧ fmt.target e = fmt.target (m t i)) (f : F) :
    Keeps fmt m (write m t i e) f := by
  intro j hpres
  by_cases hj : f = t ∧ j = i
  · obtain ⟨rfl, rfl⟩ := hj
    rw [write_same]
    exact h hpres
  · rw [write, if_neg hj]
    exact ⟨hpres, rfl⟩

/-- Clearing a word adds no link. -/
theorem keeps_of_clear (m : F → Nat → W) (t : F) (i : Nat) {e : W}
    (he : fmt.present e = false) (f : F) : Keeps fmt (write m t i e) m f := by
  intro j hpres
  by_cases hj : f = t ∧ j = i
  · obtain ⟨rfl, rfl⟩ := hj
    rw [write_same, he] at hpres
    cases hpres
  · rw [write, if_neg hj] at hpres ⊢
    exact ⟨hpres, rfl⟩

theorem tableCount_below
    (hi : i < fmt.width (h + 1)) (hpres : fmt.present (m t i) = true) (f : F) :
    tableCount fmt m h (fmt.target (m t i)) f ≤ tableCount fmt m (h + 1) t f := by
  have hle := entryTableCount_le fmt m hi (t := t) f
  rwa [entryTableCount, entryWeight, if_pos hpres] at hle

/-- Where all links are kept no weight is lost. -/
theorem weight_le_of_keeps (α β : F → Nat) :
    ∀ {h : Nat} {t : F}, (∀ f, 0 < tableCount fmt m h t f → Keeps fmt m m' f) →
      weight fmt m α β h t ≤ weight fmt m' α β h t
  | 0, _, _ => Nat.le_refl _
  | h + 1, t, hkeeps => by
      rw [weight_succ, weight_succ]
      refine Nat.add_le_add_left (sum_le_sum fun i hi => ?_) _
      rw [entryWeight, entryWeight]
      split
      · rename_i hpres
        obtain ⟨hpres', htarget⟩ := hkeeps t (tableCount_self_pos fmt m h t) i hpres
        rw [if_pos hpres', htarget]
        refine weight_le_of_keeps α β fun f hf => hkeeps f ?_
        exact Nat.lt_of_lt_of_le hf (tableCount_below fmt (mem_range.mp hi) hpres f)
      · exact Nat.zero_le _

theorem tableCount_le_of_keeps
    (hkeeps : ∀ f, 0 < tableCount fmt m h t f → Keeps fmt m m' f) (f : F) :
    tableCount fmt m h t f ≤ tableCount fmt m' h t f :=
  weight_le_of_keeps fmt _ _ hkeeps

/-- Each table of the tree has a present word among its first `w`. -/
def Full (w : Nat) (m : F → Nat → W) (h : Nat) (t : F) : Prop :=
  ∀ f, 0 < tableCount fmt m h t f → ∃ i < w, fmt.present (m f i) = true

theorem Full.below {w : Nat} (hfull : Full fmt w m (h + 1) t) (hi : i < fmt.width (h + 1))
    (hpres : fmt.present (m t i) = true) : Full fmt w m h (fmt.target (m t i)) :=
  fun f hf => hfull f (Nat.lt_of_lt_of_le hf (tableCount_below fmt hi hpres f))

variable {fmt} {w : Nat} (hwidth : ∀ k, 0 < fmt.width k)
include hwidth

/-- Some path of such a tree ends in a word. -/
theorem Full.exists_leafWord :
    ∀ {h : Nat} {t : F}, (∀ k, 0 < k → k ≤ h + 1 → fmt.width k = w) →
      Full fmt w m (h + 1) t →
      ∃ p e, (∀ k, p k < fmt.width k) ∧ leafWord fmt m p (h + 1) t = some e := by
  intro h
  induction h with
  | zero =>
      intro t hw hfull
      obtain ⟨i, hi, hpres⟩ := hfull t (tableCount_self_pos fmt m 0 t)
      rw [← hw 1 (by omega) (by omega)] at hi
      refine ⟨Function.update (fun _ => 0) 1 i, m t i, inRange_update fmt hwidth hi, ?_⟩
      rw [leafWord_one, Function.update_self, if_pos hpres]
  | succ h ih =>
      intro t hw hfull
      obtain ⟨i, hi, hpres⟩ := hfull t (tableCount_self_pos fmt m (h + 1) t)
      rw [← hw (h + 2) (by omega) (by omega)] at hi
      obtain ⟨p, e, hp, hword⟩ := ih (fun k hlo hhi => hw k hlo (by omega))
        (hfull.below fmt hi hpres)
      refine ⟨Function.update p (h + 2) i, e, inRange_update fmt hp hi, ?_⟩
      rw [leafWord_update fmt hpres, hword]

/-- A link to such a tree is there wherever the same paths end in words. -/
theorem Full.present_of_leafWord
    (hw : ∀ k, 0 < k → k ≤ h + 1 → fmt.width k = w) (hi : i < fmt.width (h + 2))
    (hpres : fmt.present (m t i) = true) (hfull : Full fmt w m (h + 1) (fmt.target (m t i)))
    (hleaf : ∀ p, (∀ k, p k < fmt.width k) →
      leafWord fmt m' p (h + 2) t = leafWord fmt m p (h + 2) t) :
    fmt.present (m' t i) = true := by
  obtain ⟨p, e, hp, hword⟩ := hfull.exists_leafWord hwidth hw
  have hsame := hleaf _ (inRange_update fmt hp hi)
  rw [leafWord_update fmt hpres, hword] at hsame
  by_contra habs
  rw [leafWord_of_empty fmt (by rw [Function.update_self]; exact Bool.eq_false_iff.mpr habs)]
    at hsame
  cases hsame

/-- Two trees with the links of a third and no empty table below their top weigh the same
when their paths end in the same words. -/
theorem weight_eq_of_leafWord {m₁ : F → Nat → W} (α β : F → Nat) :
    ∀ {h : Nat} {t : F}, (∀ k, 0 < k → k ≤ h → fmt.width k = w) →
      (∀ f, 0 < tableCount fmt m (h + 1) t f → Keeps fmt m m₁ f) →
      (∀ f, 0 < tableCount fmt m' (h + 1) t f → Keeps fmt m' m₁ f) →
      (∀ i < fmt.width (h + 1), fmt.present (m t i) = true →
        Full fmt w m h (fmt.target (m t i))) →
      (∀ i < fmt.width (h + 1), fmt.present (m' t i) = true →
        Full fmt w m' h (fmt.target (m' t i))) →
      (∀ p, (∀ k, p k < fmt.width k) →
        leafWord fmt m' p (h + 1) t = leafWord fmt m p (h + 1) t) →
      weight fmt m' α β (h + 1) t = weight fmt m α β (h + 1) t := by
  intro h
  induction h with
  | zero =>
      intro t _ _ _ _ _ hleaf
      rw [weight_succ, weight_succ]
      refine congrArg _ (sum_congr rfl fun i hi => ?_)
      have hsame := hleaf _ (inRange_update fmt hwidth (mem_range.mp hi))
      rw [leafWord_one, leafWord_one, Function.update_self] at hsame
      rw [entryWeight, entryWeight]
      by_cases hpres : fmt.present (m t i) = true
      · rw [if_pos hpres] at hsame ⊢
        split at hsame
        · rw [Option.some.inj hsame, if_pos hpres]
          rfl
        · cases hsame
      · rw [if_neg hpres] at hsame ⊢
        split at hsame
        · cases hsame
        · rename_i hpres'
          rw [if_neg hpres']
  | succ h ih =>
      intro t hw hkeeps hkeeps' hfull hfull' hleaf
      rw [weight_succ, weight_succ]
      refine congrArg _ (sum_congr rfl fun i hi => ?_)
      have hi := mem_range.mp hi
      rw [entryWeight, entryWeight]
      by_cases hpres : fmt.present (m t i) = true
      · have hpres' := (hfull i hi hpres).present_of_leafWord hwidth hw hi hpres hleaf
        -- both links are those of the third memory
        have htarget : fmt.target (m' t i) = fmt.target (m t i) :=
          (hkeeps' t (tableCount_self_pos fmt m' _ t) i hpres').2.symm.trans
            (hkeeps t (tableCount_self_pos fmt m _ t) i hpres).2
        rw [if_pos hpres, if_pos hpres', htarget]
        have hin := hfull i hi hpres
        have hin' := hfull' i hi hpres'
        rw [htarget] at hin'
        refine ih (fun k hlo hhi => hw k hlo (by omega)) (fun f hf => hkeeps f ?_)
          (fun f hf => hkeeps' f ?_) (fun j hj hp => hin.below fmt hj hp)
          (fun j hj hp => hin'.below fmt hj hp) fun p hp => ?_
        · exact Nat.lt_of_lt_of_le hf (tableCount_below fmt hi hpres f)
        · rw [← htarget] at hf
          exact Nat.lt_of_lt_of_le hf (tableCount_below fmt hi hpres' f)
        · have hsame := hleaf _ (inRange_update fmt hp hi)
          rwa [leafWord_update fmt hpres, leafWord_update fmt hpres', htarget] at hsame
      · have hpres' : ¬ fmt.present (m' t i) = true := fun hpres' => hpres
          ((hfull' i hi hpres').present_of_leafWord hwidth hw hi hpres'
            fun p hp => (hleaf p hp).symm)
        rw [if_neg hpres, if_neg hpres']

end Tables

end Radix

end GlitchedOS
