/-
A table of flags that says what is owned.  It is exact when the flag of a thing is
set while someone owns it, and no two owners share one.  The two rules say when it
stays exact: as an owner gives things up, and as it exchanges them for one other.
-/
import Mathlib.Logic.Basic
import Mathlib.Tactic.ByContra

namespace GlitchedOS

variable {α β : Type} {opened opened' : β → Bool} {owns owns' : α → β → Prop}

/-- Exactly what is owned is open, and nothing is owned twice. -/
structure ExactlyOwned (opened : β → Bool) (owns : α → β → Prop) : Prop where
  opened : ∀ p, opened p = true ↔ ∃ s, owns s p
  once : ∀ s t p, owns s p → owns t p → s = t

/-- The owner `s` gives everything up, and what `closes` says is closed. -/
theorem ExactlyOwned.drop_iff (h : ExactlyOwned opened owns) {s : α}
    {closes : β → Prop}
    (hopened : ∀ p, opened' p = true ↔ opened p = true ∧ ¬closes p)
    (howns : ∀ t p, owns' t p ↔ t ≠ s ∧ owns t p) :
    ExactlyOwned opened' owns' ↔
      (∀ p, closes p → opened p = true → owns s p) ∧
        ∀ p, owns s p → closes p := by
  constructor
  · intro h'
    refine ⟨fun p hp ho => ?_, fun p hp => ?_⟩
    · obtain ⟨t, ht⟩ := (h.opened p).mp ho
      by_contra hs
      have hts : t ≠ s := fun heq => hs (heq ▸ ht)
      have hopen := (h'.opened p).mpr ⟨t, (howns t p).mpr ⟨hts, ht⟩⟩
      exact ((hopened p).mp hopen).2 hp
    · by_contra hnot
      have hopen := (hopened p).mpr ⟨(h.opened p).mpr ⟨s, hp⟩, hnot⟩
      obtain ⟨t, ht⟩ := (h'.opened p).mp hopen
      obtain ⟨hts, ht⟩ := (howns t p).mp ht
      exact hts (h.once t s p ht hp)
  · rintro ⟨hown, hclosed⟩
    refine ⟨fun p => ⟨fun ho => ?_, ?_⟩, fun t u p ht hu => ?_⟩
    · obtain ⟨ho, hnot⟩ := (hopened p).mp ho
      obtain ⟨t, ht⟩ := (h.opened p).mp ho
      refine ⟨t, (howns t p).mpr ⟨?_, ht⟩⟩
      rintro rfl
      exact hnot (hclosed p ht)
    · rintro ⟨t, ht⟩
      obtain ⟨hts, ht⟩ := (howns t p).mp ht
      have ho := (h.opened p).mpr ⟨t, ht⟩
      exact (hopened p).mpr ⟨ho, fun hc => hts (h.once t s p ht (hown p hc ho))⟩
    · exact h.once t u p ((howns t p).mp ht).2 ((howns u p).mp hu).2

/-- The owner `s` exchanges what it has for `i`. -/
theorem ExactlyOwned.exchange_iff (h : ExactlyOwned opened owns) {s : α} {i : β}
    {closes : β → Prop}
    (hopened : ∀ p, opened' p = true ↔ (opened p = true ∧ ¬closes p) ∨ p = i)
    (howns : ∀ t p, owns' t p ↔ (t = s ∧ p = i) ∨ (t ≠ s ∧ owns t p)) :
    ExactlyOwned opened' owns' ↔
      (∀ p, closes p → opened p = true → owns s p) ∧
        (∀ p, owns s p → closes p ∨ p = i) ∧ (opened i = true → owns s i) := by
  constructor
  · intro h'
    have hself : owns' s i := (howns s i).mpr (Or.inl ⟨rfl, rfl⟩)
    refine ⟨fun p hp ho => ?_, fun p hp => ?_, fun ho => ?_⟩
    · obtain ⟨t, ht⟩ := (h.opened p).mp ho
      by_contra hs
      have hts : t ≠ s := fun heq => hs (heq ▸ ht)
      have ht' := (howns t p).mpr (Or.inr ⟨hts, ht⟩)
      rcases (hopened p).mp ((h'.opened p).mpr ⟨t, ht'⟩) with ⟨-, hnot⟩ | rfl
      · exact hnot hp
      · exact hts (h'.once t s p ht' hself)
    · by_contra hnot
      rw [not_or] at hnot
      have hopen := (hopened p).mpr (Or.inl ⟨(h.opened p).mpr ⟨s, hp⟩, hnot.1⟩)
      obtain ⟨t, ht⟩ := (h'.opened p).mp hopen
      rcases (howns t p).mp ht with ⟨-, hpi⟩ | ⟨hts, ht⟩
      · exact hnot.2 hpi
      · exact hts (h.once t s p ht hp)
    · obtain ⟨t, ht⟩ := (h.opened i).mp ho
      by_contra hs
      have hts : t ≠ s := fun heq => hs (heq ▸ ht)
      exact hts (h'.once t s i ((howns t i).mpr (Or.inr ⟨hts, ht⟩)) hself)
  · rintro ⟨hown, hclosed, hfree⟩
    refine ⟨fun p => ⟨fun ho => ?_, ?_⟩, fun t u p ht hu => ?_⟩
    · rcases (hopened p).mp ho with ⟨ho, hnot⟩ | rfl
      · obtain ⟨t, ht⟩ := (h.opened p).mp ho
        by_cases hts : t = s
        · subst hts
          have hpi := (hclosed p ht).resolve_left hnot
          exact ⟨t, (howns t p).mpr (Or.inl ⟨rfl, hpi⟩)⟩
        · exact ⟨t, (howns t p).mpr (Or.inr ⟨hts, ht⟩)⟩
      · exact ⟨s, (howns s p).mpr (Or.inl ⟨rfl, rfl⟩)⟩
    · rintro ⟨t, ht⟩
      rcases (howns t p).mp ht with ⟨-, hpi⟩ | ⟨hts, ht⟩
      · exact (hopened p).mpr (Or.inr hpi)
      · have ho := (h.opened p).mpr ⟨t, ht⟩
        refine (hopened p).mpr (Or.inl ⟨ho, fun hc => ?_⟩)
        exact hts (h.once t s p ht (hown p hc ho))
    · have hmixed : ∀ t, t ≠ s → owns t i → False := fun t hts ht =>
        hts (h.once t s i ht (hfree ((h.opened i).mpr ⟨t, ht⟩)))
      rcases (howns t p).mp ht with ⟨rfl, rfl⟩ | ⟨hts, ht⟩
      · rcases (howns u p).mp hu with ⟨rfl, -⟩ | ⟨hus, hu⟩
        · rfl
        · exact absurd hu (hmixed u hus)
      · rcases (howns u p).mp hu with ⟨rfl, rfl⟩ | ⟨hus, hu⟩
        · exact absurd ht (hmixed t hts)
        · exact h.once t u p ht hu

end GlitchedOS
