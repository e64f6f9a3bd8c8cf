/-
A range of units cut into pieces.  An allocation takes a free piece, or its first units,
and leaves the rest behind all the others; a release makes a piece free and joins nothing.
The pieces share out the range at all times.
-/
import Mathlib.Data.List.Basic

namespace GlitchedOS

namespace FirstFit

/-- Some units in a row. -/
structure Piece where
  start : Nat
  len : Nat
  free : Bool
deriving Repr, DecidableEq

namespace Piece

def Has (r : Piece) (x : Nat) : Prop := r.start ≤ x ∧ x < r.start + r.len

instance (r : Piece) (x : Nat) : Decidable (r.Has x) := inferInstanceAs (Decidable (_ ∧ _))

/-- The first `n` units of a piece, in use. -/
def taken (r : Piece) (n : Nat) : Piece := ⟨r.start, n, false⟩

/-- What is left behind the first `n` units. -/
def rest (r : Piece) (n : Nat) : Piece := ⟨r.start + n, r.len - n, true⟩

def released (r : Piece) : Piece := { r with free := true }

end Piece

variable {total n k i j x : Nat} {r q : Piece} {l l' : List Piece}

/-- The pieces share out the units below `total`. -/
structure Shares (total : Nat) (l : List Piece) : Prop where
  inside : ∀ r ∈ l, r.start + r.len ≤ total
  cover : ∀ x < total, ∃ r ∈ l, r.Has x
  unique : ∀ {i j x : Nat} {r q : Piece}, l[i]? = some r → l[j]? = some q → r.Has x →
    q.Has x → i = j

/-- A unit of a piece in use. -/
def Used (l : List Piece) (x : Nat) : Prop := ∃ r ∈ l, r.free = false ∧ r.Has x

/-- An allocation of `n` units from the free piece `r` with the index `k`. -/
structure Takes (n k : Nat) (r : Piece) (l l' : List Piece) : Prop where
  get : l[k]? = some r
  free : r.free = true
  le : n ≤ r.len
  eq : l' = l.set k (r.taken n) ++ if n < r.len then [r.rest n] else []

/-- Whoever is last among the pieces with its start, and in use, starts at a known place. -/
def Known (live : Nat → Prop) (l : List Piece) : Prop :=
  ∀ (i : Nat) (r : Piece), l[i]? = some r → r.free = false →
    (∀ (j : Nat) (q : Piece), i < j → l[j]? = some q → q.start ≠ r.start) → live r.start

theorem Known.mono {live live' : Nat → Prop} (h : Known live l) (hle : ∀ x, live x → live' x) :
    Known live' l := fun i r hr hfree hlast => hle _ (h i r hr hfree hlast)

namespace Shares

theorem single (total : Nat) : Shares total [⟨0, total, true⟩] where
  inside r hr := by
    obtain rfl := List.mem_singleton.mp hr
    exact Nat.le_of_eq (Nat.zero_add total)
  cover x hx := ⟨_, List.mem_singleton_self _, Nat.zero_le x, by rwa [Nat.zero_add]⟩
  unique hr hq _ _ := by
    have hi := (List.getElem?_eq_some_iff.mp hr).1
    have hj := (List.getElem?_eq_some_iff.mp hq).1
    rw [List.length_singleton] at hi hj
    omega

theorem lt (h : Shares total l) (hr : l[i]? = some r) (hx : r.Has x) : x < total :=
  Nat.lt_of_lt_of_le hx.2 (h.inside r (List.mem_of_getElem? hr))

/-- Pieces that are not empty have starts of their own. -/
theorem start_inj (h : Shares total l) (hr : l[i]? = some r) (hq : l[j]? = some q)
    (hpos : 0 < r.len) (hpos' : 0 < q.len) (heq : r.start = q.start) : i = j :=
  h.unique (x := r.start) hr hq ⟨Nat.le_refl _, by omega⟩ ⟨Nat.le_of_eq heq.symm, by omega⟩

/-- Pieces that are not empty lie one behind the other. -/
theorem apart (h : Shares total l) (hr : l[i]? = some r) (hq : l[j]? = some q) (hij : i ≠ j)
    (hpos : 0 < r.len) (hpos' : 0 < q.len) :
    r.start + r.len ≤ q.start ∨ q.start + q.len ≤ r.start := by
  by_contra hmeet
  rcases Nat.le_total r.start q.start with hle | hle
  · exact hij (h.unique (x := q.start) hr hq ⟨hle, by omega⟩ ⟨Nat.le_refl _, by omega⟩)
  · exact hij (h.unique (x := r.start) hr hq ⟨Nat.le_refl _, by omega⟩ ⟨hle, by omega⟩)

/-- No unit of a free piece is in use. -/
theorem not_used (h : Shares total l) (hr : l[k]? = some r) (hfree : r.free = true)
    (hx : r.Has x) : ¬ Used l x := by
  rintro ⟨q, hq, huse, hqx⟩
  obtain ⟨i, hi⟩ := List.mem_iff_getElem?.mp hq
  obtain rfl := h.unique hi hr hqx hx
  obtain rfl := Option.some.inj (hi.symm.trans hr)
  rw [hfree] at huse
  cases huse

end Shares

namespace Takes

theorem lt (h : Takes n k r l l') : k < l.length := (List.getElem?_eq_some_iff.mp h.get).1

theorem mem (h : Takes n k r l l') : r ∈ l := List.mem_of_getElem? h.get

/-- The pieces behind an allocation. -/
theorem getElem? (h : Takes n k r l l') (hi : i < l.length) :
    l'[i]? = if i = k then some (r.taken n) else l[i]? := by
  rw [h.eq, List.getElem?_append_left (by rwa [List.length_set]), List.getElem?_set]
  by_cases hik : i = k
  · rw [if_pos hik.symm, if_pos h.lt, if_pos hik]
  · rw [if_neg (Ne.symm hik), if_neg hik]

theorem eq_rest (h : Takes n k r l l') (hi : ¬ i < l.length) (hq : l'[i]? = some q) :
    q = r.rest n ∧ n < r.len := by
  rw [h.eq, List.getElem?_append_right (by rw [List.length_set]; omega)] at hq
  split at hq
  · exact ⟨List.mem_singleton.mp (List.mem_of_getElem? hq), ‹_›⟩
  · cases hq

theorem mem_cases (h : Takes n k r l l') (hq : q ∈ l') :
    q = r.taken n ∨ q = r.rest n ∧ n < r.len ∨ q ∈ l := by
  obtain ⟨i, hi⟩ := List.mem_iff_getElem?.mp hq
  by_cases hlt : i < l.length
  · rw [h.getElem? hlt] at hi
    split at hi
    · exact Or.inl (Option.some.inj hi).symm
    · exact Or.inr (Or.inr (List.mem_of_getElem? hi))
  · exact Or.inr (Or.inl (h.eq_rest hlt hi))

theorem taken_mem (h : Takes n k r l l') : r.taken n ∈ l' := by
  refine List.mem_of_getElem? (i := k) ?_
  rw [h.getElem? h.lt, if_pos rfl]

/-- The other pieces stay. -/
theorem mem_of_ne (h : Takes n k r l l') (hq : q ∈ l) (hne : q ≠ r) : q ∈ l' := by
  obtain ⟨i, hi⟩ := List.mem_iff_getElem?.mp hq
  have hlt := (List.getElem?_eq_some_iff.mp hi).1
  refine List.mem_of_getElem? (i := i) ?_
  rw [h.getElem? hlt, if_neg, hi]
  rintro rfl
  exact hne (Option.some.inj (hi.symm.trans h.get))

/-- A unit is in the piece it was in, or in what became of it. -/
theorem origin (h : Takes n k r l l') (hq : l'[i]? = some q) (hx : q.Has x) :
    (i ≠ k ∧ l[i]? = some q) ∨
      r.Has x ∧ (i = k ∧ x < r.start + n ∨ i = l.length ∧ r.start + n ≤ x) := by
  have hle := h.le
  by_cases hlt : i < l.length
  · rw [h.getElem? hlt] at hq
    split at hq
    · obtain rfl := Option.some.inj hq
      obtain ⟨hlo, hhi⟩ := hx
      simp only [Piece.taken] at hlo hhi
      exact Or.inr ⟨⟨hlo, by omega⟩, Or.inl ⟨‹_›, hhi⟩⟩
    · exact Or.inl ⟨‹_›, hq⟩
  · obtain ⟨rfl, hless⟩ := h.eq_rest hlt hq
    have hi : i < l'.length := (List.getElem?_eq_some_iff.mp hq).1
    rw [h.eq, if_pos hless, List.length_append, List.length_set, List.length_singleton] at hi
    obtain ⟨hlo, hhi⟩ := hx
    simp only [Piece.rest] at hlo hhi
    exact Or.inr ⟨⟨by omega, by omega⟩, Or.inr ⟨by omega, hlo⟩⟩

theorem shares (h : Takes n k r l l') (hl : Shares total l) : Shares total l' where
  inside q hq := by
    have hin := hl.inside r h.mem
    have hle := h.le
    rcases h.mem_cases hq with rfl | ⟨rfl, hlt⟩ | hq
    · simp only [Piece.taken]
      omega
    · simp only [Piece.rest]
      omega
    · exact hl.inside q hq
  cover x hx := by
    obtain ⟨q, hq, hhas⟩ := hl.cover x hx
    by_cases hqr : q = r
    · subst hqr
      obtain ⟨hlo, hhi⟩ := hhas
      by_cases hxn : x < q.start + n
      · exact ⟨_, h.taken_mem, hlo, hxn⟩
      · refine ⟨q.rest n, ?_, ?_⟩
        · rw [h.eq, if_pos (by omega)]
          exact List.mem_append_right _ (List.mem_singleton_self _)
        · simp only [Piece.Has, Piece.rest]
          omega
    · exact ⟨q, h.mem_of_ne hq hqr, hhas⟩
  unique hp hq hpx hqx := by
    have hlt := h.lt
    rcases h.origin hp hpx with ⟨hik, hp⟩ | ⟨hpx, hi⟩ <;>
      rcases h.origin hq hqx with ⟨hjk, hq⟩ | ⟨hqx, hj⟩
    · exact hl.unique hp hq hpx hqx
    · exact absurd (hl.unique hp h.get hpx hqx) hik
    · exact absurd (hl.unique hq h.get hqx hpx) hjk
    · omega

/-- The units in use are those of before and the ones that are taken. -/
theorem used_iff (h : Takes n k r l l') (x : Nat) :
    Used l' x ↔ Used l x ∨ r.start ≤ x ∧ x < r.start + n := by
  constructor
  · rintro ⟨q, hq, hfree, hx⟩
    rcases h.mem_cases hq with rfl | ⟨rfl, -⟩ | hq
    · exact Or.inr hx
    · cases hfree
    · exact Or.inl ⟨q, hq, hfree, hx⟩
  · rintro (⟨q, hq, hfree, hx⟩ | hx)
    · refine ⟨q, h.mem_of_ne hq ?_, hfree, hx⟩
      rintro rfl
      rw [h.free] at hfree
      cases hfree
    · exact ⟨_, h.taken_mem, rfl, hx⟩

/-- What is taken was not in use. -/
theorem not_used (h : Takes n k r l l') (hl : Shares total l) (hlo : r.start ≤ x)
    (hhi : x < r.start + n) : ¬ Used l x := by
  have hle := h.le
  exact hl.not_used h.get h.free ⟨hlo, by omega⟩

/-- Where a piece starts, a piece starts afterwards. -/
theorem exists_start (h : Takes n k r l l') (hq : q ∈ l) : ∃ p ∈ l', p.start = q.start := by
  by_cases hqr : q = r
  · rw [hqr]
    exact ⟨_, h.taken_mem, rfl⟩
  · exact ⟨q, h.mem_of_ne hq hqr, rfl⟩

theorem known {live : Nat → Prop} (h : Takes n k r l l') (hl : Known live l) :
    Known (fun p => p = r.start ∨ live p) l' := by
  intro i q hq hfree hlast
  by_cases hlt : i < l.length
  · rw [h.getElem? hlt] at hq
    split at hq
    · obtain rfl := Option.some.inj hq
      exact Or.inl rfl
    · refine Or.inr (hl i q hq hfree fun j p hij hp => ?_)
      have hj := (List.getElem?_eq_some_iff.mp hp).1
      by_cases hjk : j = k
      · subst hjk
        obtain rfl := Option.some.inj (hp.symm.trans h.get)
        exact hlast j (p.taken n) hij (by rw [h.getElem? hj, if_pos rfl])
      · exact hlast j p hij (by rw [h.getElem? hj, if_neg hjk, hp])
  · obtain ⟨rfl, -⟩ := h.eq_rest hlt hq
    cases hfree

end Takes

section Released

variable (hr : l[k]? = some r)
include hr

theorem getElem?_released (i : Nat) :
    (l.set k r.released)[i]? = if i = k then some r.released else l[i]? := by
  have hk := (List.getElem?_eq_some_iff.mp hr).1
  rw [List.getElem?_set]
  by_cases hik : i = k
  · rw [if_pos hik.symm, if_pos hk, if_pos hik]
  · rw [if_neg (Ne.symm hik), if_neg hik]

theorem shares_released (hl : Shares total l) : Shares total (l.set k r.released) := by
  have hsame : ∀ {i : Nat} {q : Piece}, (l.set k r.released)[i]? = some q →
      ∃ p : Piece, l[i]? = some p ∧ q.start = p.start ∧ q.len = p.len := by
    intro i q hq
    rw [getElem?_released hr] at hq
    split at hq
    · rename_i hik
      obtain rfl := Option.some.inj hq
      exact ⟨r, hik ▸ hr, rfl, rfl⟩
    · exact ⟨q, hq, rfl, rfl⟩
  have hhas : ∀ {p q : Piece} {x : Nat}, q.start = p.start → q.len = p.len → q.Has x → p.Has x := by
    intro p q x hstart hlen hx
    rwa [Piece.Has, hstart, hlen] at hx
  refine ⟨fun q hq => ?_, fun x hx => ?_, fun hp hq hpx hqx => ?_⟩
  · obtain ⟨i, hi⟩ := List.mem_iff_getElem?.mp hq
    obtain ⟨p, hp, hstart, hlen⟩ := hsame hi
    rw [hstart, hlen]
    exact hl.inside p (List.mem_of_getElem? hp)
  · obtain ⟨q, hq, hqx⟩ := hl.cover x hx
    obtain ⟨i, hi⟩ := List.mem_iff_getElem?.mp hq
    by_cases hik : i = k
    · subst hik
      obtain rfl := Option.some.inj (hi.symm.trans hr)
      exact ⟨q.released, List.mem_of_getElem? (by rw [getElem?_released hr, if_pos rfl]), hqx⟩
    · exact ⟨q, List.mem_of_getElem? (by rw [getElem?_released hr, if_neg hik, hi]), hqx⟩
  · obtain ⟨p', hp', hstart, hlen⟩ := hsame hp
    obtain ⟨q', hq', hstart', hlen'⟩ := hsame hq
    exact hl.unique hp' hq' (hhas hstart hlen hpx) (hhas hstart' hlen' hqx)

/-- The other pieces stay. -/
theorem mem_released (hq : q ∈ l) (hne : q ≠ r) : q ∈ l.set k r.released := by
  obtain ⟨i, hi⟩ := List.mem_iff_getElem?.mp hq
  refine List.mem_of_getElem? (i := i) ?_
  rw [getElem?_released hr, if_neg, hi]
  rintro rfl
  exact hne (Option.some.inj (hi.symm.trans hr))

theorem released_mem : r.released ∈ l.set k r.released := by
  refine List.mem_of_getElem? (i := k) ?_
  rw [getElem?_released hr, if_pos rfl]

theorem exists_start_released (hq : q ∈ l) : ∃ p ∈ l.set k r.released, p.start = q.start := by
  by_cases hqr : q = r
  · rw [hqr]
    exact ⟨_, released_mem hr, rfl⟩
  · exact ⟨q, mem_released hr hq hqr, rfl⟩

/-- The units in use are less by those of the piece. -/
theorem used_released_iff (hl : Shares total l) (x : Nat) :
    Used (l.set k r.released) x ↔ Used l x ∧ ¬ r.Has x := by
  constructor
  · rintro ⟨q, hq, hfree, hx⟩
    obtain ⟨i, hi⟩ := List.mem_iff_getElem?.mp hq
    rw [getElem?_released hr] at hi
    split at hi
    · obtain rfl := Option.some.inj hi
      cases hfree
    · rename_i hne
      exact ⟨⟨q, List.mem_of_getElem? hi, hfree, hx⟩, fun hrx => hne (hl.unique hi hr hx hrx)⟩
  · rintro ⟨⟨q, hq, hfree, hx⟩, hnot⟩
    obtain ⟨i, hi⟩ := List.mem_iff_getElem?.mp hq
    refine ⟨q, List.mem_of_getElem? (i := i) ?_, hfree, hx⟩
    rw [getElem?_released hr, if_neg, hi]
    rintro rfl
    obtain rfl := Option.some.inj (hi.symm.trans hr)
    exact hnot hx

/-- The last piece with its start is released. -/
theorem known_released {live : Nat → Prop} (hl : Known live l)
    (hlast : ∀ j q, k < j → l[j]? = some q → q.start ≠ r.start) :
    Known (fun p => live p ∧ p ≠ r.start) (l.set k r.released) := by
  intro i q hq hfree hend
  rw [getElem?_released hr] at hq
  split at hq
  · obtain rfl := Option.some.inj hq
    cases hfree
  rename_i hne
  refine ⟨hl i q hq hfree fun j p hij hp => ?_, fun heq => ?_⟩
  · by_cases hjk : j = k
    · subst hjk
      obtain rfl := Option.some.inj (hp.symm.trans hr)
      exact hend j p.released hij (by rw [getElem?_released hr, if_pos rfl])
    · exact hend j p hij (by rw [getElem?_released hr, if_neg hjk, hp])
  · rcases Nat.lt_or_gt_of_ne hne with hlt | hgt
    · exact hend k r.released hlt (by rw [getElem?_released hr, if_pos rfl]) heq.symm
    · exact hlast i q hgt hq heq

end Released

end FirstFit

end GlitchedOS
