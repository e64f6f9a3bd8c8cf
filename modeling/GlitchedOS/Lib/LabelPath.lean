/-
Words of labels in a forest.  A word leads from a node to those below it; siblings with
different labels make the end of a word unique, and one parent for each node makes the word
unique that leads to it from the root.
-/
import Mathlib.Data.List.Infix
import Mathlib.Data.List.Nodup

namespace GlitchedOS

universe u v

variable {α : Type u} {β : Type v} {kids kids' : α → List α} {label label' : α → β}
  {a b c root : α} {x : β} {xs ys : List β}

/-- The nodes that a word of labels leads to. -/
def LabelPath (kids : α → List α) (label : α → β) : α → List β → α → Prop
  | a, [], b => b = a
  | a, x :: rest, b => ∃ c ∈ kids a, label c = x ∧ LabelPath kids label c rest b

/-- A node has one parent, and the root has none. -/
structure Rooted (kids : α → List α) (root : α) : Prop where
  parent : ∀ a b c, c ∈ kids a → c ∈ kids b → a = b
  root : ∀ a, root ∉ kids a

namespace LabelPath

theorem append_iff : LabelPath kids label a (xs ++ ys) b ↔
    ∃ c, LabelPath kids label a xs c ∧ LabelPath kids label c ys b := by
  induction xs generalizing a with
  | nil =>
      constructor
      · intro h
        exact ⟨a, rfl, h⟩
      · rintro ⟨c, rfl, h⟩
        exact h
  | cons x rest ih =>
      constructor
      · rintro ⟨d, hd, hlabel, h⟩
        obtain ⟨c, hfirst, hsecond⟩ := ih.mp h
        exact ⟨c, ⟨d, hd, hlabel, hfirst⟩, hsecond⟩
      · rintro ⟨c, ⟨d, hd, hlabel, hfirst⟩, hsecond⟩
        exact ⟨d, hd, hlabel, ih.mpr ⟨c, hfirst, hsecond⟩⟩

theorem single_iff : LabelPath kids label a [x] b ↔ b ∈ kids a ∧ label b = x := by
  constructor
  · rintro ⟨c, hc, hlabel, rfl⟩
    exact ⟨hc, hlabel⟩
  · rintro ⟨hb, hlabel⟩
    exact ⟨b, hb, hlabel, rfl⟩

theorem snoc_iff : LabelPath kids label a (xs ++ [x]) b ↔
    ∃ c, LabelPath kids label a xs c ∧ b ∈ kids c ∧ label b = x := by
  simp only [append_iff, single_iff]

/-- A word leads to one node. -/
theorem end_unique (hdistinct : ∀ a, ((kids a).map label).Nodup)
    (h : LabelPath kids label a xs b) (h' : LabelPath kids label a xs c) : b = c := by
  induction xs generalizing a with
  | nil => exact Eq.trans h (Eq.symm h')
  | cons x rest ih =>
      obtain ⟨d, hd, hlabel, h⟩ := h
      obtain ⟨d', hd', hlabel', h'⟩ := h'
      obtain rfl := List.inj_on_of_nodup_map (hdistinct a) hd hd' (hlabel.trans hlabel'.symm)
      exact ih h h'

/-- One word leads to a node. -/
theorem word_unique (hrooted : Rooted kids root) (h : LabelPath kids label root xs b)
    (h' : LabelPath kids label root ys b) : xs = ys := by
  induction xs using List.reverseRecOn generalizing b ys with
  | nil =>
      obtain rfl : b = root := h
      rcases List.eq_nil_or_concat' ys with rfl | ⟨rest, y, rfl⟩
      · rfl
      · obtain ⟨c, -, hmem, -⟩ := snoc_iff.mp h'
        exact absurd hmem (hrooted.root c)
  | append_singleton xs x ih =>
      obtain ⟨c, hc, hmem, hlabel⟩ := snoc_iff.mp h
      rcases List.eq_nil_or_concat' ys with rfl | ⟨rest, y, rfl⟩
      · obtain rfl : b = root := h'
        exact absurd hmem (hrooted.root c)
      · obtain ⟨c', hc', hmem', hlabel'⟩ := snoc_iff.mp h'
        obtain rfl := hrooted.parent c c' b hmem hmem'
        rw [ih hc hc', ← hlabel, ← hlabel']

/-- More nodes keep a word. -/
theorem mono (hkids : ∀ a, kids a ⊆ kids' a) (hlabel : ∀ a, ∀ c ∈ kids a, label' c = label c)
    (h : LabelPath kids label a xs b) : LabelPath kids' label' a xs b := by
  induction xs generalizing a with
  | nil => exact h
  | cons x rest ih =>
      obtain ⟨c, hc, hx, h⟩ := h
      exact ⟨c, hkids a hc, (hlabel a c hc).trans hx, ih h⟩

/-- A node without nodes below it is the end of each word that meets it. -/
theorem of_leaf (hleaf : kids c = []) (h : LabelPath kids label c xs b) : b = c ∧ xs = [] := by
  cases xs with
  | nil => exact ⟨h, rfl⟩
  | cons x rest =>
      obtain ⟨d, hd, -⟩ := h
      rw [hleaf] at hd
      cases hd

/-- A word to another node does not meet a leaf. -/
theorem avoid (hleaf : kids c = []) (hother : ∀ a, ∀ d ∈ kids a, d ≠ c → d ∈ kids' a ∧
    label' d = label d) (hne : b ≠ c) (h : LabelPath kids label a xs b) :
    LabelPath kids' label' a xs b := by
  induction xs generalizing a with
  | nil => exact h
  | cons x rest ih =>
      obtain ⟨d, hd, hx, h⟩ := h
      have hdc : d ≠ c := by
        rintro rfl
        exact hne (h.of_leaf hleaf).1
      obtain ⟨hd', hlabel⟩ := hother a d hd hdc
      exact ⟨d, hd', hlabel.trans hx, ih h⟩

/-- A word with no part that leads to a node does not need it. -/
theorem avoid_of_not_leads
    (hother : ∀ a, a ≠ c → ∀ d ∈ kids a, d ≠ c → d ∈ kids' a ∧ label' d = label d)
    (hmiss : ∀ ys zs, xs = ys ++ zs → ¬ LabelPath kids label a ys c)
    (h : LabelPath kids label a xs b) : LabelPath kids' label' a xs b := by
  induction xs generalizing a with
  | nil => exact h
  | cons x rest ih =>
      obtain ⟨d, hd, hx, h⟩ := h
      have hac : a ≠ c := fun heq => hmiss [] (x :: rest) rfl heq.symm
      have hdc : d ≠ c := by
        rintro rfl
        exact hmiss [x] rest rfl ⟨d, hd, hx, rfl⟩
      obtain ⟨hd', hlabel⟩ := hother a hac d hd hdc
      refine ⟨d, hd', hlabel.trans hx, ih (fun ys zs hsplit hys => ?_) h⟩
      exact hmiss (x :: ys) zs (congrArg (List.cons x) hsplit) ⟨d, hd, hx, hys⟩

/-- The word to the parent of a node does not need the node. -/
theorem above (hrooted : Rooted kids root) (hc : c ∈ kids b)
    (hother : ∀ a, a ≠ c → ∀ d ∈ kids a, d ≠ c → d ∈ kids' a ∧ label' d = label d)
    (h : LabelPath kids label root xs b) : LabelPath kids' label' root xs b := by
  refine h.avoid_of_not_leads hother fun ys zs hsplit hys => ?_
  have hbelow : LabelPath kids label root (xs ++ [label c]) c := snoc_iff.mpr ⟨b, h, hc, rfl⟩
  have hlength := congrArg List.length (hys.word_unique hrooted hbelow)
  rw [hsplit, List.length_append, List.length_append, List.length_singleton] at hlength
  omega

end LabelPath

end GlitchedOS
