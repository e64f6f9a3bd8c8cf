/-
Families of chains.  Each head of a family starts a chain that ends, and no element is
on the chains of two heads; so a pointer that changes on one chain, or outside all of
them, leaves the others as they were.
-/
import GlitchedOS.Lib.Chain
import Mathlib.Data.Set.Insert

namespace GlitchedOS

universe u

variable {α : Type u} {next next' : α → Option α} {heads heads' : Set α} {a b g h k p : α}
  {l : List α}

/-- The element is on the chain of a head. -/
def OnChain (next : α → Option α) (h a : α) : Prop :=
  ∃ l, Chain next (some h) l ∧ a ∈ l

/-- The chains of some heads end, and have no element in common. -/
structure Chains (next : α → Option α) (heads : Set α) : Prop where
  ends : ∀ h ∈ heads, ∃ l, Chain next (some h) l
  apart : ∀ h ∈ heads, ∀ k ∈ heads, ∀ a, OnChain next h a → OnChain next k a → h = k

theorem Chain.onChain_iff (hchain : Chain next (some h) l) : OnChain next h a ↔ a ∈ l := by
  constructor
  · rintro ⟨l', hchain', hmem⟩
    rw [hchain.unique hchain']
    exact hmem
  · intro hmem
    exact ⟨l, hchain, hmem⟩

/-- A chain starts at its head. -/
theorem Chain.head_mem (hchain : Chain next (some h) l) : h ∈ l := by
  cases l with
  | nil => cases hchain
  | cons b rest =>
      obtain rfl := Option.some.inj hchain.1
      exact List.mem_cons_self

/-- The part of the chain from an element on. -/
theorem OnChain.rest (honChain : OnChain next h a) :
    ∃ before after, Chain next (some h) (before ++ a :: after) ∧
      Chain next (some a) (a :: after) := by
  obtain ⟨l, hchain, hmem⟩ := honChain
  obtain ⟨before, after, rfl⟩ := List.append_of_mem hmem
  exact ⟨before, after, hchain, rfl, hchain.suffix⟩

theorem OnChain.step (honChain : OnChain next h a) (hnext : next a = some b) :
    OnChain next h b := by
  obtain ⟨before, after, hchain, hrest⟩ := honChain.rest
  refine ⟨before ++ a :: after, hchain, ?_⟩
  have htail : Chain next (next a) after := hrest.2
  rw [hnext] at htail
  exact List.mem_append_right _ (List.mem_cons_of_mem _ htail.head_mem)

theorem OnChain.trans (honChain : OnChain next h a) (hmore : OnChain next a b) :
    OnChain next h b := by
  obtain ⟨before, after, hchain, hrest⟩ := honChain.rest
  exact ⟨_, hchain, List.mem_append_right before (hrest.onChain_iff.mp hmore)⟩

/-- Behind an element without a pointer there is none. -/
theorem OnChain.last (honChain : OnChain next h p) (hlast : next p = none) :
    ∃ before, Chain next (some h) (before ++ [p]) := by
  obtain ⟨before, after, hchain, hrest⟩ := honChain.rest
  have htail : Chain next (next p) after := hrest.2
  rw [hlast] at htail
  cases after with
  | nil => exact ⟨before, hchain⟩
  | cons c rest => cases htail.1

namespace Chains

theorem onChain_head (hchains : Chains next heads) (hh : h ∈ heads) : OnChain next h h := by
  obtain ⟨l, hchain⟩ := hchains.ends h hh
  exact ⟨l, hchain, hchain.head_mem⟩

/-- Pointers outside a chain do not matter. -/
theorem onChain_congr (hchains : Chains next heads) (hh : h ∈ heads)
    (hnext : ∀ b, OnChain next h b → next' b = next b) :
    OnChain next' h a ↔ OnChain next h a := by
  obtain ⟨l, hchain⟩ := hchains.ends h hh
  have hchain' : Chain next' (some h) l :=
    hchain.congr fun b hb => hnext b ⟨l, hchain, hb⟩
  rw [hchain.onChain_iff, hchain'.onChain_iff]

theorem congr (hchains : Chains next heads)
    (hnext : ∀ h ∈ heads, ∀ b, OnChain next h b → next' b = next b) : Chains next' heads where
  ends h hh := by
    obtain ⟨l, hchain⟩ := hchains.ends h hh
    exact ⟨l, hchain.congr fun b hb => hnext h hh b ⟨l, hchain, hb⟩⟩
  apart h hh k hk a honChain honChain' := by
    rw [hchains.onChain_congr hh (hnext h hh)] at honChain
    rw [hchains.onChain_congr hk (hnext k hk)] at honChain'
    exact hchains.apart h hh k hk a honChain honChain'

theorem mono (hchains : Chains next heads) (hsubset : heads' ⊆ heads) : Chains next heads' where
  ends h hh := hchains.ends h (hsubset hh)
  apart h hh k hk := hchains.apart h (hsubset hh) k (hsubset hk)

/-- A chain of its own beside the others. -/
theorem insert (hchains : Chains next heads) (hchain : Chain next (some g) l)
    (hfresh : ∀ h ∈ heads, ∀ a ∈ l, ¬ OnChain next h a) : Chains next (insert g heads) where
  ends h hh := by
    rcases hh with rfl | hh
    · exact ⟨l, hchain⟩
    · exact hchains.ends h hh
  apart h hh k hk a honChain honChain' := by
    rcases hh with rfl | hh <;> rcases hk with rfl | hk
    · rfl
    · exact absurd honChain' (hfresh k hk a (hchain.onChain_iff.mp honChain))
    · exact absurd honChain (hfresh h hh a (hchain.onChain_iff.mp honChain'))
    · exact hchains.apart h hh k hk a honChain honChain'

/-- One of the chains gets an element at its end: what is on it then. -/
theorem onChain_extend (hchains : Chains next heads) (hh : h ∈ heads)
    (honChain : OnChain next h p) (hlast : next p = none) (hp : next' p = some g)
    (hg : next' g = none) (hother : ∀ i ∈ heads, ∀ b, OnChain next i b → b ≠ p → next' b = next b)
    (hk : k ∈ heads) :
    OnChain next' k a ↔ OnChain next k a ∨ k = h ∧ a = g := by
  by_cases hkh : k = h
  · subst hkh
    obtain ⟨before, hchain⟩ := honChain.last hlast
    have hnotMem : ∀ b ∈ before, b ≠ p := hchain.ne_of_split.1
    have hchain' : Chain next' (some k) (before ++ [p, g]) := by
      refine hchain.splice (fun b hb => hother k hk b ?_ (hnotMem b hb)) ⟨hp, hg⟩
      exact ⟨_, hchain, List.mem_append_left _ hb⟩
    rw [hchain.onChain_iff, hchain'.onChain_iff]
    simp only [List.mem_append, List.mem_cons, List.not_mem_nil, or_false, true_and, or_assoc]
  · have hsame : ∀ b, OnChain next k b → next' b = next b := by
      intro b hb
      refine hother k hk b hb ?_
      rintro rfl
      exact hkh (hchains.apart k hk h hh b hb honChain)
    rw [hchains.onChain_congr hk hsame]
    exact ⟨.inl, fun h => h.resolve_right fun h => hkh h.1⟩

theorem extend (hchains : Chains next heads) (hh : h ∈ heads)
    (honChain : OnChain next h p) (hlast : next p = none)
    (hfresh : ∀ k ∈ heads, ¬ OnChain next k g) (hp : next' p = some g) (hg : next' g = none)
    (hother : ∀ i ∈ heads, ∀ b, OnChain next i b → b ≠ p → next' b = next b) :
    Chains next' heads := by
  have hextend : ∀ {k a}, k ∈ heads → (OnChain next' k a ↔ OnChain next k a ∨ k = h ∧ a = g) :=
    fun hk => hchains.onChain_extend hh honChain hlast hp hg hother hk
  constructor
  · intro k hk
    obtain ⟨l, hchain', -⟩ := (hextend hk).mpr (.inl (hchains.onChain_head hk))
    exact ⟨l, hchain'⟩
  · intro k hk k' hk' a ha ha'
    rcases (hextend hk).mp ha with ha | ⟨hkh, hag⟩ <;>
      rcases (hextend hk').mp ha' with ha' | ⟨hkh', hag'⟩
    · exact hchains.apart k hk k' hk' a ha ha'
    · exact absurd (hag' ▸ ha) (hfresh k hk)
    · exact absurd (hag ▸ ha') (hfresh k' hk')
    · exact hkh.trans hkh'.symm

end Chains

end GlitchedOS
