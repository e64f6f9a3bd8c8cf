/-
Radix tables kept in a memory of frames.  A table of height `h + 1` is a frame
whose present words point to tables of height `h`; what height `0` points to is
plain data.  The weight of a tree counts its tables and its data frames with
multiplicity, so sharing, exclusive ownership and reference counts are all
statements about weights.  The lemmas say what one word written into one table
does to the weights and to the entries met along every path.
-/
import Mathlib.Algebra.BigOperators.Group.Finset.Basic
import Mathlib.Algebra.Order.BigOperators.Group.Finset
import Mathlib.Algebra.Order.BigOperators.Group.List
import Mathlib.Tactic.Ring

namespace GlitchedOS

namespace Radix

open Finset

variable {F W : Type}

/-- How a table word is read, and how many words of a table are looked at. -/
structure Format (F W : Type) where
  present : W → Bool
  target : W → F
  width : Nat → Nat

variable (fmt : Format F W)
variable {m : F → Nat → W} {t t₀ : F} {p : Nat → Nat} {l : List W} {h d k : Nat}

/-- The weight of the tree of height `h` at `t`: `α` for each of its tables and
`β` for each frame its leaves point to. -/
def weight (m : F → Nat → W) (α β : F → Nat) : Nat → F → Nat
  | 0, t => β t
  | h + 1, t => α t + ∑ i ∈ range (fmt.width (h + 1)),
      if fmt.present (m t i) then weight m α β h (fmt.target (m t i)) else 0

/-- The weight one table word of height `h + 1` adds. -/
def entryWeight (m : F → Nat → W) (α β : F → Nat) (h : Nat) (e : W) : Nat :=
  if fmt.present e then weight fmt m α β h (fmt.target e) else 0

theorem weight_succ (m : F → Nat → W) (α β : F → Nat) (h : Nat) (t : F) :
    weight fmt m α β (h + 1) t =
      α t + ∑ i ∈ range (fmt.width (h + 1)),
        entryWeight fmt m α β h (m t i) := rfl

/-- The entries met from a table of height `h` down to the leaf, when every one
of them is present.  `p k` is the index used in the table of height `k`. -/
def trail (m : F → Nat → W) (p : Nat → Nat) : Nat → F → Option (List W)
  | 0, _ => some []
  | h + 1, t =>
      if fmt.present (m t (p (h + 1))) then
        (trail m p h (fmt.target (m t (p (h + 1))))).map
          (m t (p (h + 1)) :: ·)
      else none

theorem trail_succ (m : F → Nat → W) (p : Nat → Nat) (h : Nat) (t : F) :
    trail fmt m p (h + 1) t =
      if fmt.present (m t (p (h + 1))) then
        (trail fmt m p h (fmt.target (m t (p (h + 1))))).map
          (m t (p (h + 1)) :: ·)
      else none := rfl

/-- Go `d` levels down from a table of height `k + d`: the entries passed and
the table of height `k` reached. -/
def descend (m : F → Nat → W) (p : Nat → Nat) (k : Nat) :
    Nat → F → Option (List W × F)
  | 0, t => some ([], t)
  | d + 1, t =>
      if fmt.present (m t (p (k + d + 1))) then
        (descend m p k d (fmt.target (m t (p (k + d + 1))))).map
          fun r => (m t (p (k + d + 1)) :: r.1, r.2)
      else none

theorem descend_succ_some (h : descend fmt m p k (d + 1) t = some (l, t₀)) :
    ∃ rest, fmt.present (m t (p (k + d + 1))) = true ∧
      l = m t (p (k + d + 1)) :: rest ∧
      descend fmt m p k d (fmt.target (m t (p (k + d + 1)))) =
        some (rest, t₀) := by
  rw [descend] at h
  split at h
  · rename_i hpres
    rw [Option.map_eq_some_iff] at h
    obtain ⟨⟨rest, last⟩, hrest, heq⟩ := h
    obtain ⟨rfl, rfl⟩ := Prod.mk.inj heq
    exact ⟨rest, hpres, rfl, hrest⟩
  · cases h

/-- A trail is the entries passed on the way to a table, then its own trail. -/
theorem trail_of_descend :
    ∀ {d : Nat} {t : F} {l : List W} {t₀ : F},
      descend fmt m p k d t = some (l, t₀) →
        trail fmt m p (k + d) t = (trail fmt m p k t₀).map (l ++ ·)
  | 0, t, l, t₀, h => by
      obtain ⟨rfl, rfl⟩ := Prod.mk.inj (Option.some.inj h)
      simp
  | d + 1, t, l, t₀, h => by
      obtain ⟨rest, hpres, rfl, hrest⟩ := descend_succ_some fmt h
      have ih := trail_of_descend hrest
      rw [← Nat.add_assoc, trail_succ, if_pos hpres, ih, Option.map_map]
      rfl

/-- A trail that exists passes through a table of every height below. -/
theorem descend_of_trail :
    ∀ {d : Nat} {t : F} {es : List W},
      trail fmt m p (k + d) t = some es →
        ∃ l t₀ rest, descend fmt m p k d t = some (l, t₀) ∧
          trail fmt m p k t₀ = some rest ∧ es = l ++ rest
  | 0, t, es, h => ⟨[], t, es, rfl, h, rfl⟩
  | d + 1, t, es, h => by
      rw [← Nat.add_assoc, trail_succ] at h
      split at h
      · rename_i hpres
        rw [Option.map_eq_some_iff] at h
        obtain ⟨es', hes', rfl⟩ := h
        obtain ⟨l, t₀, rest, hl, hrest, rfl⟩ := descend_of_trail hes'
        refine ⟨m t (p (k + d + 1)) :: l, t₀, rest, ?_, hrest, rfl⟩
        rw [descend, if_pos hpres, hl]
        rfl
      · cases h

/-- An index of a path replaced by one in range. -/
theorem inRange_update (hp : ∀ k, p k < fmt.width k) {i : Nat}
    (hi : i < fmt.width h) : ∀ k, Function.update p h i k < fmt.width k := by
  intro k
  by_cases hk : k = h
  · subst hk
    rwa [Function.update_self]
  · rw [Function.update_of_ne hk]
    exact hp k

theorem descend_path_congr {q : Nat → Nat} :
    ∀ {d : Nat} {t : F}, (∀ j, k < j → j ≤ k + d → p j = q j) →
      descend fmt m p k d t = descend fmt m q k d t
  | 0, _, _ => rfl
  | d + 1, t, h => by
      have htop : p (k + d + 1) = q (k + d + 1) :=
        h (k + d + 1) (by omega) (by omega)
      rw [descend, descend, htop,
        descend_path_congr fun j hlo hhi => h j hlo (by omega)]

/-- Splitting one word off the sum over a table. -/
theorem weight_split (m : F → Nat → W) (α β : F → Nat) (t : F)
    {i : Nat} (hi : i < fmt.width (h + 1)) :
    weight fmt m α β (h + 1) t = α t + (entryWeight fmt m α β h (m t i) +
      ∑ j ∈ (range (fmt.width (h + 1))).erase i,
        entryWeight fmt m α β h (m t j)) := by
  rw [weight_succ, ← add_sum_erase _ _ (mem_range.mpr hi)]

/-- A table with no present word is a tree of its own. -/
theorem weight_of_empty (α β : F → Nat)
    (hempty : ∀ i < fmt.width (h + 1), fmt.present (m t i) = false) :
    weight fmt m α β (h + 1) t = α t := by
  rw [weight_succ, sum_eq_zero]
  · rfl
  · intro i hi
    rw [entryWeight, hempty i (mem_range.mp hi)]
    rfl

/-- Weights add up. -/
theorem weight_add (m : F → Nat → W) (α β α' β' : F → Nat) :
    ∀ (h : Nat) (t : F),
      weight fmt m (fun f => α f + α' f) (fun f => β f + β' f) h t =
        weight fmt m α β h t + weight fmt m α' β' h t
  | 0, _ => rfl
  | h + 1, t => by
      have hsum : ∑ i ∈ range (fmt.width (h + 1)), entryWeight fmt m
            (fun f => α f + α' f) (fun f => β f + β' f) h (m t i) =
          ∑ i ∈ range (fmt.width (h + 1)),
            (entryWeight fmt m α β h (m t i) +
              entryWeight fmt m α' β' h (m t i)) := by
        apply sum_congr rfl
        intro i _
        rw [entryWeight, entryWeight, entryWeight]
        split
        · exact weight_add m α β α' β' h _
        · rfl
      rw [weight_succ, weight_succ, weight_succ, hsum, sum_add_distrib]
      omega

section Counts

variable [DecidableEq F]

/-- How often `f` is a table of the tree. -/
def tableCount (m : F → Nat → W) (h : Nat) (t f : F) : Nat :=
  weight fmt m (fun x => if x = f then 1 else 0) (fun _ => 0) h t

/-- How often `f` is the target of a leaf of the tree. -/
def leafCount (m : F → Nat → W) (h : Nat) (t f : F) : Nat :=
  weight fmt m (fun _ => 0) (fun x => if x = f then 1 else 0) h t

/-- No table of the tree occurs in it twice. -/
def Exclusive (m : F → Nat → W) (h : Nat) (t : F) : Prop :=
  ∀ f, tableCount fmt m h t f ≤ 1

def entryTableCount (m : F → Nat → W) (h : Nat) (e : W) (f : F) : Nat :=
  entryWeight fmt m (fun x => if x = f then 1 else 0) (fun _ => 0) h e

theorem tableCount_succ (m : F → Nat → W) (h : Nat) (t f : F) :
    tableCount fmt m (h + 1) t f = (if t = f then 1 else 0) +
      ∑ i ∈ range (fmt.width (h + 1)), entryTableCount fmt m h (m t i) f := rfl

theorem entryTableCount_le (m : F → Nat → W) {i : Nat}
    (hi : i < fmt.width (h + 1)) (f : F) :
    entryTableCount fmt m h (m t i) f ≤ tableCount fmt m (h + 1) t f := by
  have hle := single_le_sum
    (f := fun i => entryTableCount fmt m h (m t i) f)
    (fun _ _ => Nat.zero_le _) (mem_range.mpr hi)
  have hsucc := tableCount_succ fmt m h t f
  omega

theorem tableCount_self_pos (m : F → Nat → W) (h : Nat) (t : F) :
    0 < tableCount fmt m (h + 1) t t := by
  rw [tableCount_succ]
  simp

/-- Two words of one exclusive table lead to disjoint trees. -/
theorem Exclusive.entry_disjoint (hex : Exclusive fmt m (h + 1) t) {i j : Nat}
    (hi : i < fmt.width (h + 1)) (hj : j < fmt.width (h + 1)) (hne : i ≠ j)
    (f : F) : entryTableCount fmt m h (m t i) f +
      entryTableCount fmt m h (m t j) f ≤ 1 := by
  have hsub : ({i, j} : Finset Nat) ⊆ range (fmt.width (h + 1)) := by
    intro x hx
    simp only [mem_insert, mem_singleton] at hx
    rcases hx with rfl | rfl
    · exact mem_range.mpr hi
    · exact mem_range.mpr hj
  have hle := sum_le_sum_of_subset
    (f := fun i => entryTableCount fmt m h (m t i) f) hsub
  rw [sum_pair hne] at hle
  have hone := hex f
  rw [tableCount_succ] at hone
  omega

/-- An exclusive table does not occur below itself. -/
theorem Exclusive.entry_self (hex : Exclusive fmt m (h + 1) t) {i : Nat}
    (hi : i < fmt.width (h + 1)) :
    entryTableCount fmt m h (m t i) t = 0 := by
  have hle := single_le_sum
    (f := fun i => entryTableCount fmt m h (m t i) t)
    (fun _ _ => Nat.zero_le _) (mem_range.mpr hi)
  have hone := hex t
  rw [tableCount_succ, if_pos rfl] at hone
  omega

theorem Exclusive.entry (hex : Exclusive fmt m (h + 1) t) {i : Nat}
    (hi : i < fmt.width (h + 1)) (hpres : fmt.present (m t i) = true) :
    Exclusive fmt m h (fmt.target (m t i)) := by
  intro f
  have hle := entryTableCount_le fmt m hi (t := t) f
  rw [entryTableCount, entryWeight, if_pos hpres] at hle
  exact hle.trans (hex f)

/-- The height at which each table stands, `0` for a frame that is no table.  A
link leads one height down. -/
structure Levels (m : F → Nat → W) (h : Nat) (t : F) (level : F → Nat) :
    Prop where
  top : level t = h
  table : ∀ f, level f ≠ 0 → 0 < tableCount fmt m h t f
  link : ∀ f i, 2 ≤ level f → i < fmt.width (level f) →
    fmt.present (m f i) = true → level (fmt.target (m f i)) + 1 = level f

/-- The tables of an exclusive tree have heights. -/
theorem Exclusive.exists_levels :
    ∀ {h : Nat} {t : F}, Exclusive fmt m (h + 1) t →
      ∃ level, Levels fmt m (h + 1) t level
  | 0, t, _ => by
      refine ⟨fun f => if f = t then 1 else 0, if_pos rfl, ?_, ?_⟩
      · intro f hf
        have hft : f = t := by
          by_contra hne
          exact hf (if_neg hne)
        rw [tableCount_succ, if_pos hft.symm]
        omega
      · intro f i hf
        split at hf <;> omega
  | h + 1, t, hex => by
      classical
      have hsub : ∀ i, i < fmt.width (h + 2) → fmt.present (m t i) = true →
          ∃ level, Levels fmt m (h + 1) (fmt.target (m t i)) level :=
        fun i hi hpres => exists_levels (hex.entry fmt hi hpres)
      choose! L hL using hsub
      -- the words of `t` behind which a table stands
      set Behind : F → Nat → Prop := fun f i =>
        i < fmt.width (h + 2) ∧ fmt.present (m t i) = true ∧ L i f ≠ 0
      have hcount : ∀ f i, Behind f i →
          0 < entryTableCount fmt m (h + 1) (m t i) f := by
        rintro f i ⟨hi, hpres, hne⟩
        rw [entryTableCount, entryWeight, if_pos hpres]
        exact (hL i hi hpres).table f hne
      have hunique : ∀ f i j, Behind f i → Behind f j → i = j := by
        intro f i j hi hj
        by_contra hne
        have hpos := hcount f i hi
        have hpos' := hcount f j hj
        have hone := hex.entry_disjoint fmt hi.1 hj.1 hne f
        omega
      have hself : ∀ i, ¬ Behind t i := by
        intro i hi
        have hpos := hcount t i hi
        have hzero := hex.entry_self fmt hi.1
        omega
      set level : F → Nat := fun f => if f = t then h + 2 else
        if hf : ∃ i, Behind f i then L hf.choose f else 0 with hlevel
      have hbehind : ∀ f i, Behind f i → level f = L i f := by
        intro f i hi
        have hex : ∃ i, Behind f i := ⟨i, hi⟩
        have hft : f ≠ t := by
          rintro rfl
          exact hself i hi
        rw [hlevel]
        dsimp only
        rw [if_neg hft, dif_pos hex, hunique f _ i hex.choose_spec hi]
      refine ⟨level, if_pos rfl, ?_, ?_⟩
      · intro f hf
        rw [hlevel] at hf
        dsimp only at hf
        split at hf
        · rename_i hft
          rw [tableCount_succ, if_pos hft.symm]
          omega
        · split at hf
          · rename_i hex
            have hi := hex.choose_spec
            exact Nat.lt_of_lt_of_le (hcount f _ hi)
              (entryTableCount_le fmt m hi.1 f)
          · exact absurd rfl hf
      · intro f i hf hi hpres
        by_cases hft : f = t
        · subst hft
          rw [show level f = h + 2 from if_pos rfl] at hi ⊢
          have htop := (hL i hi hpres).top
          rw [hbehind (fmt.target (m f i)) i ⟨hi, hpres, by omega⟩, htop]
        · obtain ⟨j, hj⟩ : ∃ j, Behind f j := by
            by_contra hnone
            rw [hlevel] at hf
            dsimp only at hf
            rw [if_neg hft, dif_neg hnone] at hf
            omega
          have heq := hbehind f j hj
          rw [heq] at hf hi ⊢
          have hlink := (hL j hj.1 hj.2.1).link f i hf hi hpres
          rw [hbehind (fmt.target (m f i)) j ⟨hj.1, hj.2.1, by omega⟩]
          exact hlink

/-- The weight of a tree depends only on the presence and the targets of the
words of its own tables. -/
theorem weight_shapeCongr {m' : F → Nat → W} (α β : F → Nat) :
    ∀ {h : Nat} {t : F},
      (∀ f, 0 < tableCount fmt m h t f → ∀ i,
        fmt.present (m' f i) = fmt.present (m f i) ∧
          fmt.target (m' f i) = fmt.target (m f i)) →
        weight fmt m' α β h t = weight fmt m α β h t
  | 0, _, _ => rfl
  | h + 1, t, hagree => by
      have hself := hagree t (tableCount_self_pos fmt m h t)
      rw [weight_succ, weight_succ]
      congr 1
      apply sum_congr rfl
      intro i hi
      rw [entryWeight, entryWeight, (hself i).1, (hself i).2]
      split
      · rename_i hpres
        apply weight_shapeCongr α β
        intro f hf
        apply hagree f
        have hle := entryTableCount_le fmt m (mem_range.mp hi) (t := t) f
        rw [entryTableCount, entryWeight, if_pos hpres] at hle
        exact Nat.lt_of_lt_of_le hf hle
      · rfl

/-- A tree depends only on its own tables. -/
theorem weight_congr {m' : F → Nat → W} (α β : F → Nat)
    (hagree : ∀ f, 0 < tableCount fmt m h t f → ∀ i, m' f i = m f i) :
    weight fmt m' α β h t = weight fmt m α β h t := by
  apply weight_shapeCongr
  intro f hf i
  rw [hagree f hf i]
  exact ⟨rfl, rfl⟩

theorem entryWeight_congr {m' : F → Nat → W} (α β : F → Nat)
    {e : W} (hagree : ∀ f, 0 < entryTableCount fmt m h e f →
      ∀ i, m' f i = m f i) :
    entryWeight fmt m' α β h e = entryWeight fmt m α β h e := by
  rw [entryWeight, entryWeight]
  split
  · rename_i hpres
    apply weight_congr
    intro f hf
    apply hagree f
    rw [entryTableCount, entryWeight, if_pos hpres]
    exact hf
  · rfl

/-- A trail depends only on the tables of its tree. -/
theorem trail_congr {m' : F → Nat → W} (hp : ∀ k, p k < fmt.width k) :
    ∀ {h : Nat} {t : F},
      (∀ f, 0 < tableCount fmt m h t f → ∀ i, m' f i = m f i) →
        trail fmt m' p h t = trail fmt m p h t
  | 0, _, _ => rfl
  | h + 1, t, hagree => by
      have hself := hagree t (tableCount_self_pos fmt m h t)
      rw [trail, trail, hself]
      split
      · rename_i hpres
        rw [trail_congr hp]
        intro f hf
        apply hagree f
        have hle := entryTableCount_le fmt m (hp (h + 1)) (t := t) f
        rw [entryTableCount, entryWeight, if_pos hpres] at hle
        exact Nat.lt_of_lt_of_le hf hle
      · rfl

/-- One word written into one frame. -/
def write (m : F → Nat → W) (t : F) (i : Nat) (e : W) : F → Nat → W :=
  fun f j => if f = t ∧ j = i then e else m f j

omit fmt in
@[simp]
theorem write_same (m : F → Nat → W) (t : F) (i : Nat) (e : W) :
    write m t i e t i = e := by
  simp [write]

omit fmt in
theorem write_frame_ne (m : F → Nat → W) {f : F} (i : Nat) (e : W)
    (hne : f ≠ t) (j : Nat) : write m t i e f j = m f j := by
  simp [write, hne]

omit fmt in
theorem write_word_ne (m : F → Nat → W) (t f : F) {i j : Nat} (e : W)
    (hne : j ≠ i) : write m t i e f j = m f j := by
  simp [write, hne]

/-- A word written outside the tables of a tree does not change its weight. -/
theorem weight_write_of_not_table (α β : F → Nat) (i : Nat) (e : W)
    (hout : tableCount fmt m h t t₀ = 0) :
    weight fmt (write m t₀ i e) α β h t = weight fmt m α β h t := by
  apply weight_congr
  intro f hf j
  apply write_frame_ne
  rintro rfl
  omega

theorem entryWeight_write_of_not_table (α β : F → Nat) {e' : W} (i : Nat) (e : W)
    (hout : entryTableCount fmt m h e' t₀ = 0) :
    entryWeight fmt (write m t₀ i e) α β h e' =
      entryWeight fmt m α β h e' := by
  apply entryWeight_congr
  intro f hf j
  apply write_frame_ne
  rintro rfl
  omega

/-- A table reached on the way down is one of the tables of the tree. -/
theorem tableCount_descend_le (hp : ∀ k, p k < fmt.width k) :
    ∀ {d : Nat} {t : F} {l : List W} {t₀ : F},
      descend fmt m p k d t = some (l, t₀) → ∀ f,
        tableCount fmt m k t₀ f ≤ tableCount fmt m (k + d) t f
  | 0, t, l, t₀, h, f => by
      obtain ⟨rfl, rfl⟩ := Prod.mk.inj (Option.some.inj h)
      exact Nat.le_refl _
  | d + 1, t, l, t₀, h, f => by
      obtain ⟨rest, hpres, -, hrest⟩ := descend_succ_some fmt h
      have ih := tableCount_descend_le hp hrest f
      have hle := entryTableCount_le fmt m (hp (k + d + 1)) (t := t) f
      rw [entryTableCount, entryWeight, if_pos hpres] at hle
      exact ih.trans hle

theorem leafCount_descend_le (hp : ∀ k, p k < fmt.width k) :
    ∀ {d : Nat} {t : F} {l : List W} {t₀ : F},
      descend fmt m p k d t = some (l, t₀) → ∀ f,
        leafCount fmt m k t₀ f ≤ leafCount fmt m (k + d) t f
  | 0, t, l, t₀, h, f => by
      obtain ⟨rfl, rfl⟩ := Prod.mk.inj (Option.some.inj h)
      exact Nat.le_refl _
  | d + 1, t, l, t₀, h, f => by
      obtain ⟨rest, hpres, -, hrest⟩ := descend_succ_some fmt h
      have ih := leafCount_descend_le hp hrest f
      have hsplit := weight_split fmt m (fun _ => 0)
        (fun x => if x = f then 1 else 0) t (hp (k + d + 1))
      rw [entryWeight, if_pos hpres] at hsplit
      simp only [leafCount] at ih ⊢
      rw [← Nat.add_assoc, hsplit]
      omega

/-- The table reached lies below the word the path takes. -/
theorem entryTableCount_descend_pos (hp : ∀ k, p k < fmt.width k) {rest : List W}
    (hpres : fmt.present (m t (p (k + 1 + d + 1))) = true)
    (hrest : descend fmt m p (k + 1) d
      (fmt.target (m t (p (k + 1 + d + 1)))) = some (rest, t₀)) :
    0 < entryTableCount fmt m (k + 1 + d) (m t (p (k + 1 + d + 1))) t₀ := by
  rw [entryTableCount, entryWeight, if_pos hpres]
  exact Nat.lt_of_lt_of_le (tableCount_self_pos fmt m k t₀)
    (tableCount_descend_le fmt hp hrest t₀)

theorem Exclusive.ne_of_below (hex : Exclusive fmt m (h + 1) t) {i : Nat}
    (hi : i < fmt.width (h + 1))
    (hbelow : 0 < entryTableCount fmt m h (m t i) t₀) : t ≠ t₀ := by
  rintro rfl
  have := hex.entry_self fmt hi
  omega

/-- What one word written into a table of the tree does to its weight: the
weight behind the old word goes, the weight behind the new one comes. -/
theorem weight_write (α β : F → Nat) (hp : ∀ k, p k < fmt.width k) (e : W) :
    ∀ {d : Nat} {t : F} {l : List W} {t₀ : F},
      Exclusive fmt m (k + 1 + d) t →
      descend fmt m p (k + 1) d t = some (l, t₀) →
        weight fmt (write m t₀ (p (k + 1)) e) α β (k + 1 + d) t +
            entryWeight fmt m α β k (m t₀ (p (k + 1))) =
          weight fmt m α β (k + 1 + d) t +
            entryWeight fmt (write m t₀ (p (k + 1)) e) α β k e
  | 0, t, l, t₀, hex, h => by
      obtain ⟨rfl, rfl⟩ := Prod.mk.inj (Option.some.inj h)
      have hi := hp (k + 1)
      have hrest : ∑ j ∈ (range (fmt.width (k + 1))).erase (p (k + 1)),
            entryWeight fmt (write m t (p (k + 1)) e) α β k
              (write m t (p (k + 1)) e t j) =
          ∑ j ∈ (range (fmt.width (k + 1))).erase (p (k + 1)),
            entryWeight fmt m α β k (m t j) := by
        apply sum_congr rfl
        intro j hj
        obtain ⟨hne, hj⟩ := mem_erase.mp hj
        rw [write_word_ne m t t e hne]
        apply entryWeight_write_of_not_table
        exact hex.entry_self fmt (mem_range.mp hj)
      rw [Nat.add_zero, weight_split fmt _ α β t hi,
        weight_split fmt m α β t hi, hrest, write_same]
      omega
  | d + 1, t, l, t₀, hex, h => by
      obtain ⟨rest, hpres, -, hrest⟩ := descend_succ_some fmt h
      have hi := hp (k + 1 + d + 1)
      have hex : Exclusive fmt m (k + 1 + d + 1) t := hex
      have hsub := hex.entry fmt hi hpres
      have ih := weight_write α β hp e hsub hrest
      have hbelow := entryTableCount_descend_pos fmt hp hpres hrest
      have hne := hex.ne_of_below fmt hi hbelow
      have hword : ∀ j, write m t₀ (p (k + 1)) e t j = m t j :=
        write_frame_ne m _ _ hne
      have hothers : ∑ j ∈ (range (fmt.width (k + 1 + d + 1))).erase
              (p (k + 1 + d + 1)),
            entryWeight fmt (write m t₀ (p (k + 1)) e) α β (k + 1 + d)
              (write m t₀ (p (k + 1)) e t j) =
          ∑ j ∈ (range (fmt.width (k + 1 + d + 1))).erase
              (p (k + 1 + d + 1)),
            entryWeight fmt m α β (k + 1 + d) (m t j) := by
        apply sum_congr rfl
        intro j hj
        obtain ⟨hj, hjw⟩ := mem_erase.mp hj
        rw [hword]
        apply entryWeight_write_of_not_table
        have := hex.entry_disjoint fmt (mem_range.mp hjw) hi hj t₀
        omega
      have hpath : ∀ m' : F → Nat → W, m' t (p (k + 1 + d + 1)) =
          m t (p (k + 1 + d + 1)) →
          entryWeight fmt m' α β (k + 1 + d) (m' t (p (k + 1 + d + 1))) =
            weight fmt m' α β (k + 1 + d)
              (fmt.target (m t (p (k + 1 + d + 1)))) := by
        intro m' heq
        rw [heq, entryWeight, if_pos hpres]
      rw [← Nat.add_assoc, weight_split fmt _ α β t hi,
        weight_split fmt m α β t hi, hothers, hpath _ (hword _), hpath m rfl]
      omega

/-- A word written outside the tables of a tree does not change its trails. -/
theorem trail_write_of_not_table (hp : ∀ k, p k < fmt.width k) (i : Nat) (e : W)
    (hout : tableCount fmt m h t t₀ = 0) :
    trail fmt (write m t₀ i e) p h t = trail fmt m p h t := by
  apply trail_congr fmt hp
  intro f hf j
  apply write_frame_ne
  rintro rfl
  omega

/-- The way down to a table does not read the table itself. -/
theorem descend_write (hp : ∀ k, p k < fmt.width k) (i : Nat) (e : W) :
    ∀ {d : Nat} {t : F} {l : List W} {t₀ : F},
      Exclusive fmt m (k + 1 + d) t →
      descend fmt m p (k + 1) d t = some (l, t₀) →
        descend fmt (write m t₀ i e) p (k + 1) d t = some (l, t₀)
  | 0, t, l, t₀, _, h => h
  | d + 1, t, l, t₀, hex, h => by
      obtain ⟨rest, hpres, rfl, hrest⟩ := descend_succ_some fmt h
      have hi := hp (k + 1 + d + 1)
      have hex : Exclusive fmt m (k + 1 + d + 1) t := hex
      have ih := descend_write hp i e (hex.entry fmt hi hpres) hrest
      have hbelow := entryTableCount_descend_pos fmt hp hpres hrest
      have hne := hex.ne_of_below fmt hi hbelow
      rw [descend, write_frame_ne m _ _ hne, if_pos hpres, ih]
      rfl

/-- Nor does the way down to any table above it. -/
theorem descend_write_above (hp : ∀ k, p k < fmt.width k) (i : Nat) (e : W) {j : Nat} :
    ∀ {d : Nat} {t : F} {l : List W} {t₀ : F},
      Exclusive fmt m (k + 1 + (j + d)) t →
      descend fmt m p (k + 1) (j + d) t = some (l, t₀) →
        descend fmt (write m t₀ i e) p (k + 1 + j) d t =
          descend fmt m p (k + 1 + j) d t
  | 0, t, l, t₀, _, _ => rfl
  | d + 1, t, l, t₀, hex, h => by
      obtain ⟨rest, hpres, -, hrest⟩ := descend_succ_some fmt h
      have hi := hp (k + 1 + (j + d) + 1)
      have hex : Exclusive fmt m (k + 1 + (j + d) + 1) t := hex
      have ih := descend_write_above hp i e (hex.entry fmt hi hpres) hrest
      have hne := hex.ne_of_below fmt hi
        (entryTableCount_descend_pos fmt hp hpres hrest)
      have hidx : k + 1 + (j + d) + 1 = k + 1 + j + d + 1 := by omega
      rw [hidx] at ih
      rw [descend, descend, write_frame_ne m _ _ hne, ih]

/-- A trail that leaves the path of the written word above it or at it is not
changed. -/
theorem trail_write_of_ne {q : Nat → Nat}
    (hp : ∀ k, p k < fmt.width k) (hq : ∀ k, q k < fmt.width k)
    (e : W) :
    ∀ {d : Nat} {t : F} {l : List W} {t₀ : F},
      Exclusive fmt m (k + 1 + d) t →
      descend fmt m p (k + 1) d t = some (l, t₀) →
      (∃ j, k < j ∧ j ≤ k + 1 + d ∧ q j ≠ p j) →
        trail fmt (write m t₀ (p (k + 1)) e) q (k + 1 + d) t =
          trail fmt m q (k + 1 + d) t
  | 0, t, l, t₀, hex, h, hdiff => by
      obtain ⟨rfl, rfl⟩ := Prod.mk.inj (Option.some.inj h)
      obtain ⟨j, hlo, hhi, hne⟩ := hdiff
      obtain rfl : j = k + 1 := by omega
      rw [Nat.add_zero, trail_succ, trail_succ, write_word_ne m t t e hne]
      split
      · rename_i hpres
        rw [trail_write_of_not_table fmt hq]
        have hself := hex.entry_self fmt (hq (k + 1))
        rw [entryTableCount, entryWeight, if_pos hpres] at hself
        exact hself
      · rfl
  | d + 1, t, l, t₀, hex, h, hdiff => by
      obtain ⟨rest, hpres, -, hrest⟩ := descend_succ_some fmt h
      have hi := hp (k + 1 + d + 1)
      have hex : Exclusive fmt m (k + 1 + d + 1) t := hex
      have hbelow := entryTableCount_descend_pos fmt hp hpres hrest
      have hne := hex.ne_of_below fmt hi hbelow
      rw [← Nat.add_assoc, trail_succ, trail_succ, write_frame_ne m _ _ hne]
      by_cases htop : q (k + 1 + d + 1) = p (k + 1 + d + 1)
      · rw [htop, if_pos hpres, if_pos hpres,
          trail_write_of_ne hp hq e (hex.entry fmt hi hpres) hrest]
        obtain ⟨j, hlo, hhi, hj⟩ := hdiff
        refine ⟨j, hlo, ?_, hj⟩
        have : j ≠ k + 1 + d + 1 := by
          rintro rfl
          exact hj htop
        omega
      · split
        · rename_i hqpres
          rw [trail_write_of_not_table fmt hq]
          have hdisj := hex.entry_disjoint fmt (hq _) hi htop t₀
          rw [entryTableCount, entryWeight, if_pos hqpres] at hdisj
          change _ + entryTableCount fmt m (k + 1 + d)
            (m t (p (k + 1 + d + 1))) t₀ ≤ 1 at hdisj
          rw [tableCount]
          omega
        · rfl

/-- The trail through the written word: the way down is the old one and the
rest starts at the new word. -/
theorem trail_write_through {q : Nat → Nat} (hp : ∀ k, p k < fmt.width k) (e : W)
    (hex : Exclusive fmt m (k + 1 + d) t)
    (h : descend fmt m p (k + 1) d t = some (l, t₀))
    (hsame : ∀ j, k < j → j ≤ k + 1 + d → q j = p j) :
    trail fmt (write m t₀ (p (k + 1)) e) q (k + 1 + d) t =
      if fmt.present e then
        (trail fmt (write m t₀ (p (k + 1)) e) q k (fmt.target e)).map
          fun rest => l ++ e :: rest
      else none := by
  have hdesc := descend_write fmt hp (p (k + 1)) e hex h
  rw [descend_path_congr fmt (q := q)
    fun j hlo hhi => (hsame j (by omega) hhi).symm] at hdesc
  rw [trail_of_descend fmt hdesc, trail_succ,
    hsame (k + 1) (by omega) (by omega), write_same]
  split
  · rw [Option.map_map]
    rfl
  · rfl

end Counts

/-! ### The word at the end of a path -/

/-- The leaf word a path ends in, when every entry on the way is present. -/
def leafWord (m : F → Nat → W) (p : Nat → Nat) (h : Nat) (t : F) : Option W :=
  (trail fmt m p h t).bind List.getLast?

theorem trail_succ_ne_nil
    {es : List W} (hes : trail fmt m p (h + 1) t = some es) : es ≠ [] := by
  rw [trail_succ] at hes
  split at hes
  · rw [Option.map_eq_some_iff] at hes
    obtain ⟨rest, -, rfl⟩ := hes
    exact List.cons_ne_nil _ _
  · cases hes

private theorem getLast?_map_append (l : List W) {o : Option (List W)}
    (hne : ∀ es, o = some es → es ≠ []) :
    (o.map (l ++ ·)).bind List.getLast? = o.bind List.getLast? := by
  cases o with
  | none => rfl
  | some es =>
      have hes := hne es rfl
      change (l ++ es).getLast? = es.getLast?
      rw [List.getLast?_append, List.getLast?_eq_some_getLast hes]
      rfl

theorem leafWord_of_descend (h : descend fmt m p (k + 1) d t = some (l, t₀)) :
    leafWord fmt m p (k + 1 + d) t = leafWord fmt m p (k + 1) t₀ := by
  rw [leafWord, leafWord, trail_of_descend fmt h]
  exact getLast?_map_append l fun es hes => trail_succ_ne_nil fmt hes

theorem leafWord_one (m : F → Nat → W) (p : Nat → Nat) (t : F) :
    leafWord fmt m p 1 t =
      if fmt.present (m t (p 1)) then some (m t (p 1)) else none := by
  rw [leafWord, trail_succ]
  split <;> rfl

theorem leafWord_succ (m : F → Nat → W) (p : Nat → Nat) (h : Nat) (t : F) :
    leafWord fmt m p (h + 2) t =
      if fmt.present (m t (p (h + 2))) then
        leafWord fmt m p (h + 1) (fmt.target (m t (p (h + 2))))
      else none := by
  rw [leafWord, trail_succ]
  split
  · exact getLast?_map_append [m t (p (h + 2))]
      fun es hes => trail_succ_ne_nil fmt hes
  · rfl

theorem leafWord_of_empty (hempty : fmt.present (m t (p (h + 1))) = false) :
    leafWord fmt m p (h + 1) t = none := by
  rw [leafWord, trail_succ, hempty]
  rfl

theorem leafWord_path_congr {q : Nat → Nat} :
    ∀ {h : Nat} {t : F}, (∀ j, 0 < j → j ≤ h → p j = q j) →
      leafWord fmt m p h t = leafWord fmt m q h t
  | 0, _, _ => rfl
  | 1, t, h => by
      rw [leafWord_one, leafWord_one, h 1 (by omega) (by omega)]
  | n + 2, t, h => by
      rw [leafWord_succ, leafWord_succ, h (n + 2) (by omega) (by omega),
        leafWord_path_congr fun j hlo hhi => h j hlo (by omega)]

/-! ### Changes of flag bits -/

/-- Two memories whose words have the same targets and presence. -/
def SameShape (m m' : F → Nat → W) : Prop :=
  ∀ t i, fmt.present (m' t i) = fmt.present (m t i) ∧
    fmt.target (m' t i) = fmt.target (m t i)

theorem weight_sameShape {m' : F → Nat → W} (hshape : SameShape fmt m m')
    (α β : F → Nat) : ∀ (h : Nat) (t : F),
      weight fmt m' α β h t = weight fmt m α β h t
  | 0, _ => rfl
  | h + 1, t => by
      rw [weight_succ, weight_succ]
      congr 1
      apply sum_congr rfl
      intro i _
      rw [entryWeight, entryWeight, (hshape t i).1, (hshape t i).2,
        weight_sameShape hshape α β h]

theorem descend_sameShape {m' : F → Nat → W} (hshape : SameShape fmt m m') :
    ∀ {d : Nat} {t : F} {l : List W} {t₀ : F},
      descend fmt m p k d t = some (l, t₀) →
        ∃ l', descend fmt m' p k d t = some (l', t₀)
  | 0, t, l, t₀, h => by
      obtain ⟨-, rfl⟩ := Prod.mk.inj (Option.some.inj h)
      exact ⟨[], rfl⟩
  | d + 1, t, l, t₀, h => by
      obtain ⟨rest, hpres, -, hrest⟩ := descend_succ_some fmt h
      obtain ⟨l', hl'⟩ := descend_sameShape hshape hrest
      refine ⟨m' t (p (k + d + 1)) :: l', ?_⟩
      rw [descend, (hshape _ _).1, if_pos hpres, (hshape _ _).2, hl']
      rfl

theorem descend_snoc :
    ∀ {d : Nat} {t : F} {l : List W} {t₀ : F},
      descend fmt m p (k + 1) d t = some (l, t₀) →
      fmt.present (m t₀ (p (k + 1))) = true →
        descend fmt m p k (d + 1) t =
          some (l ++ [m t₀ (p (k + 1))], fmt.target (m t₀ (p (k + 1))))
  | 0, t, l, t₀, h, hpres => by
      obtain ⟨rfl, rfl⟩ := Prod.mk.inj (Option.some.inj h)
      rw [descend, Nat.add_zero, if_pos hpres]
      rfl
  | d + 1, t, l, t₀, h, hpres => by
      obtain ⟨rest, htop, rfl, hrest⟩ := descend_succ_some fmt h
      have ih := descend_snoc hrest hpres
      have hidx : k + 1 + d + 1 = k + (d + 1) + 1 := by omega
      rw [hidx] at htop ih
      rw [descend, if_pos htop, ih, hidx]
      rfl

/-- The way down to a table passes a present word of its parent. -/
theorem descend_parent :
    ∀ {d : Nat} {t : F} {l : List W} {c : F},
      descend fmt m p k (d + 1) t = some (l, c) →
        ∃ l' t₀, descend fmt m p (k + 1) d t = some (l', t₀) ∧
          fmt.present (m t₀ (p (k + 1))) = true ∧
          fmt.target (m t₀ (p (k + 1))) = c
  | 0, t, l, c, h => by
      obtain ⟨rest, hpres, -, hrest⟩ := descend_succ_some fmt h
      obtain ⟨-, rfl⟩ := Prod.mk.inj (Option.some.inj hrest)
      exact ⟨[], t, rfl, hpres, rfl⟩
  | d + 1, t, l, c, h => by
      obtain ⟨rest, hpres, -, hrest⟩ := descend_succ_some fmt h
      obtain ⟨l', t₀, hl', hin, htarget⟩ := descend_parent hrest
      have hidx : k + (d + 1) + 1 = k + 1 + d + 1 := by omega
      rw [hidx] at hpres hl'
      refine ⟨m t (p (k + 1 + d + 1)) :: l', t₀, ?_, hin, htarget⟩
      rw [descend, if_pos hpres, hl']
      rfl

section LeafCounts

variable [DecidableEq F]

theorem sameShape_write {i : Nat} {e : W} (hpres : fmt.present e = fmt.present (m t i))
    (htarget : fmt.target e = fmt.target (m t i)) :
    SameShape fmt m (write m t i e) := by
  intro f j
  by_cases hj : f = t ∧ j = i
  · obtain ⟨rfl, rfl⟩ := hj
    rw [write_same]
    exact ⟨hpres, htarget⟩
  · simp only [write, if_neg hj, and_self]

/-- The way down depends only on the tables of the tree. -/
theorem descend_congr {m' : F → Nat → W} (hp : ∀ k, p k < fmt.width k) :
    ∀ {d : Nat} {t : F},
      (∀ f, 0 < tableCount fmt m (k + d) t f → ∀ i, m' f i = m f i) →
        descend fmt m' p k d t = descend fmt m p k d t
  | 0, _, _ => rfl
  | d + 1, t, hagree => by
      have hself := hagree t (tableCount_self_pos fmt m (k + d) t)
      rw [descend, descend, hself]
      split
      · rename_i hpres
        rw [descend_congr hp]
        intro f hf
        apply hagree f
        have hle := entryTableCount_le fmt m (hp (k + d + 1)) (t := t) f
        rw [entryTableCount, entryWeight, if_pos hpres] at hle
        exact Nat.lt_of_lt_of_le hf hle
      · rfl

/-- The table reached depends only on the presence and the targets of the words
of the tree. -/
theorem descend_shapeCongr {m' : F → Nat → W} (hp : ∀ k, p k < fmt.width k) :
    ∀ {d : Nat} {t : F} {l : List W} {t₀ : F},
      (∀ f, 0 < tableCount fmt m (k + d) t f → ∀ i,
        fmt.present (m' f i) = fmt.present (m f i) ∧
          fmt.target (m' f i) = fmt.target (m f i)) →
      descend fmt m p k d t = some (l, t₀) →
        ∃ l', descend fmt m' p k d t = some (l', t₀)
  | 0, t, l, t₀, _, h => by
      obtain ⟨-, rfl⟩ := Prod.mk.inj (Option.some.inj h)
      exact ⟨[], rfl⟩
  | d + 1, t, l, t₀, hagree, h => by
      obtain ⟨rest, hpres, -, hrest⟩ := descend_succ_some fmt h
      have hself := hagree t (tableCount_self_pos fmt m (k + d) t)
        (p (k + d + 1))
      have hbelow : ∀ f, 0 < tableCount fmt m (k + d)
          (fmt.target (m t (p (k + d + 1)))) f → ∀ i,
          fmt.present (m' f i) = fmt.present (m f i) ∧
            fmt.target (m' f i) = fmt.target (m f i) := by
        intro f hf
        apply hagree f
        have hle := entryTableCount_le fmt m (hp (k + d + 1)) (t := t) f
        rw [entryTableCount, entryWeight, if_pos hpres] at hle
        exact Nat.lt_of_lt_of_le hf hle
      obtain ⟨l', hl'⟩ := descend_shapeCongr hp hbelow hrest
      refine ⟨m' t (p (k + d + 1)) :: l', ?_⟩
      rw [descend, hself.1, if_pos hpres, hself.2, hl']
      rfl

/-- The frame behind a leaf word is counted. -/
theorem leafCount_pos_of_leafWord (hp : ∀ k, p k < fmt.width k) :
    ∀ {h : Nat} {t : F} {e : W}, leafWord fmt m p h t = some e →
      0 < leafCount fmt m h t (fmt.target e)
  | 0, _, _, h => by cases h
  | 1, t, e, h => by
      rw [leafWord_one] at h
      split at h
      · rename_i hpres
        obtain rfl := Option.some.inj h
        rw [leafCount, weight_split fmt m _ _ t (hp 1), entryWeight,
          if_pos hpres]
        simp [weight]
      · cases h
  | n + 2, t, e, h => by
      rw [leafWord_succ] at h
      split at h
      · rename_i hpres
        have ih := leafCount_pos_of_leafWord hp h
        rw [leafCount] at ih
        rw [leafCount, weight_split fmt m _ _ t (hp (n + 2)), entryWeight,
          if_pos hpres]
        omega
      · cases h

theorem leafWord_congr {m' : F → Nat → W} (hp : ∀ k, p k < fmt.width k)
    (hagree : ∀ f, 0 < tableCount fmt m h t f → ∀ i, m' f i = m f i) :
    leafWord fmt m' p h t = leafWord fmt m p h t := by
  rw [leafWord, leafWord, trail_congr fmt hp hagree]

theorem leafWord_write_of_not_table (hp : ∀ k, p k < fmt.width k) (i : Nat) (e : W)
    (hout : tableCount fmt m h t t₀ = 0) :
    leafWord fmt (write m t₀ i e) p h t = leafWord fmt m p h t := by
  rw [leafWord, leafWord, trail_write_of_not_table fmt hp i e hout]

theorem leafWord_write_of_ne {q : Nat → Nat}
    (hp : ∀ k, p k < fmt.width k) (hq : ∀ k, q k < fmt.width k)
    (e : W)
    (hex : Exclusive fmt m (k + 1 + d) t)
    (h : descend fmt m p (k + 1) d t = some (l, t₀))
    (hdiff : ∃ j, k < j ∧ j ≤ k + 1 + d ∧ q j ≠ p j) :
    leafWord fmt (write m t₀ (p (k + 1)) e) q (k + 1 + d) t =
      leafWord fmt m q (k + 1 + d) t := by
  rw [leafWord, leafWord, trail_write_of_ne fmt hp hq e hex h hdiff]

/-- Writing a leaf word, seen along a path through it. -/
theorem leafWord_write_leaf {q : Nat → Nat} (hp : ∀ k, p k < fmt.width k) (e : W)
    (hex : Exclusive fmt m (1 + d) t)
    (h : descend fmt m p 1 d t = some (l, t₀))
    (hsame : ∀ j, 0 < j → j ≤ 1 + d → q j = p j) :
    leafWord fmt (write m t₀ (p 1) e) q (1 + d) t =
      if fmt.present e then some e else none := by
  have hex' : Exclusive fmt m (0 + 1 + d) t := by simpa using hex
  have hdesc := descend_write fmt hp (p 1) e hex' h
  rw [descend_path_congr fmt (q := q)
    fun j hlo hhi => (hsame j (by omega) (by omega)).symm] at hdesc
  have hleaf := leafWord_of_descend fmt (k := 0) hdesc
  rw [Nat.zero_add] at hleaf
  rw [hleaf, leafWord_one, hsame 1 (by omega) (by omega), write_same]

/-- Writing a table link, seen along a path through it. -/
theorem leafWord_write_link {q : Nat → Nat} (hp : ∀ k, p k < fmt.width k) (e : W)
    (hex : Exclusive fmt m (k + 1 + 1 + d) t)
    (h : descend fmt m p (k + 1 + 1) d t = some (l, t₀))
    (hsame : ∀ j, k + 1 < j → j ≤ k + 1 + 1 + d → q j = p j) :
    leafWord fmt (write m t₀ (p (k + 1 + 1)) e) q (k + 1 + 1 + d) t =
      if fmt.present e then
        leafWord fmt (write m t₀ (p (k + 1 + 1)) e) q (k + 1) (fmt.target e)
      else none := by
  have hdesc := descend_write fmt hp (p (k + 1 + 1)) e hex h
  rw [descend_path_congr fmt (q := q)
    fun j hlo hhi => (hsame j (by omega) hhi).symm] at hdesc
  rw [leafWord_of_descend fmt hdesc, leafWord_succ,
    hsame (k + 1 + 1) (by omega) (by omega), write_same]

end LeafCounts

/-! ### Forests -/

section Forest

/-- The weight of a list of trees, each given by its height and its root. -/
def forestWeight (m : F → Nat → W) (α β : F → Nat)
    (trees : List (Nat × F)) : Nat :=
  (trees.map fun x => weight fmt m α β x.1 x.2).sum

@[simp]
theorem forestWeight_nil (m : F → Nat → W) (α β : F → Nat) :
    forestWeight fmt m α β [] = 0 := rfl

@[simp]
theorem forestWeight_cons (m : F → Nat → W) (α β : F → Nat) (h : Nat) (t : F)
    (trees : List (Nat × F)) :
    forestWeight fmt m α β ((h, t) :: trees) =
      weight fmt m α β h t + forestWeight fmt m α β trees := by
  simp [forestWeight]

theorem forestWeight_perm (m : F → Nat → W) (α β : F → Nat)
    {trees trees' : List (Nat × F)} (hperm : trees.Perm trees') :
    forestWeight fmt m α β trees = forestWeight fmt m α β trees' :=
  (hperm.map _).sum_eq

variable [DecidableEq F]

def forestTables (m : F → Nat → W) (trees : List (Nat × F)) (f : F) : Nat :=
  forestWeight fmt m (fun x => if x = f then 1 else 0) (fun _ => 0) trees

def forestLeaves (m : F → Nat → W) (trees : List (Nat × F)) (f : F) : Nat :=
  forestWeight fmt m (fun _ => 0) (fun x => if x = f then 1 else 0) trees

@[simp]
theorem forestTables_cons (m : F → Nat → W) (h : Nat) (t : F)
    (trees : List (Nat × F)) (f : F) :
    forestTables fmt m ((h, t) :: trees) f =
      tableCount fmt m h t f + forestTables fmt m trees f :=
  forestWeight_cons fmt m _ _ h t trees

@[simp]
theorem forestLeaves_cons (m : F → Nat → W) (h : Nat) (t : F)
    (trees : List (Nat × F)) (f : F) :
    forestLeaves fmt m ((h, t) :: trees) f =
      leafCount fmt m h t f + forestLeaves fmt m trees f :=
  forestWeight_cons fmt m _ _ h t trees

theorem tableCount_le_forestTables (m : F → Nat → W) {x : Nat × F}
    {trees : List (Nat × F)} (hx : x ∈ trees) (f : F) :
    tableCount fmt m x.1 x.2 f ≤ forestTables fmt m trees f :=
  List.single_le_sum (fun _ _ => Nat.zero_le _) _ (List.mem_map_of_mem hx)

theorem leafCount_le_forestLeaves (m : F → Nat → W) {x : Nat × F}
    {trees : List (Nat × F)} (hx : x ∈ trees) (f : F) :
    leafCount fmt m x.1 x.2 f ≤ forestLeaves fmt m trees f :=
  List.single_le_sum (fun _ _ => Nat.zero_le _) _ (List.mem_map_of_mem hx)

/-- The weight of a forest depends only on the presence and the targets of the words of
its own tables. -/
theorem forestWeight_shapeCongr {m' : F → Nat → W} (α β : F → Nat) {trees : List (Nat × F)}
    (hagree : ∀ f, 0 < forestTables fmt m trees f → ∀ i,
      fmt.present (m' f i) = fmt.present (m f i) ∧
        fmt.target (m' f i) = fmt.target (m f i)) :
    forestWeight fmt m' α β trees = forestWeight fmt m α β trees := by
  rw [forestWeight, forestWeight]
  congr 1
  apply List.map_congr_left
  intro x hx
  apply weight_shapeCongr
  intro f hf
  exact hagree f (Nat.lt_of_lt_of_le hf (tableCount_le_forestTables fmt m hx f))

/-- A forest depends only on its own tables. -/
theorem forestWeight_congr {m' : F → Nat → W} (α β : F → Nat) {trees : List (Nat × F)}
    (hagree : ∀ f, 0 < forestTables fmt m trees f → ∀ i, m' f i = m f i) :
    forestWeight fmt m' α β trees = forestWeight fmt m α β trees := by
  apply forestWeight_shapeCongr
  intro f hf i
  rw [hagree f hf i]
  exact ⟨rfl, rfl⟩

/-- What one word written into a table of the first tree does to the weight of
a forest in which no table occurs twice. -/
theorem forestWeight_write (α β : F → Nat)
    (hp : ∀ k, p k < fmt.width k) (e : W) {rest : List (Nat × F)}
    (honce : ∀ f, forestTables fmt m ((k + 1 + d, t) :: rest) f ≤ 1)
    (h : descend fmt m p (k + 1) d t = some (l, t₀)) :
    forestWeight fmt (write m t₀ (p (k + 1)) e) α β ((k + 1 + d, t) :: rest) +
        entryWeight fmt m α β k (m t₀ (p (k + 1))) =
      forestWeight fmt m α β ((k + 1 + d, t) :: rest) +
        entryWeight fmt (write m t₀ (p (k + 1)) e) α β k e := by
  have hex : Exclusive fmt m (k + 1 + d) t := by
    intro f
    have := honce f
    rw [forestTables_cons] at this
    omega
  have hself := Nat.lt_of_lt_of_le (tableCount_self_pos fmt m k t₀)
    (tableCount_descend_le fmt hp h t₀)
  have hrest : forestWeight fmt (write m t₀ (p (k + 1)) e) α β rest =
      forestWeight fmt m α β rest := by
    apply forestWeight_congr
    intro f hf j
    apply write_frame_ne
    rintro rfl
    have := honce f
    rw [forestTables_cons] at this
    omega
  have hwrite := weight_write fmt α β hp e hex h
  rw [forestWeight_cons, forestWeight_cons, hrest]
  omega

/-- Hanging a tree of the forest under an absent word moves its weight. -/
theorem forestWeight_link (α β : F → Nat)
    (hp : ∀ k, p k < fmt.width k) {e : W} {c : F} {rest : List (Nat × F)}
    (honce : ∀ f, forestTables fmt m
      ((k + 1, c) :: (k + 1 + 1 + d, t) :: rest) f ≤ 1)
    (h : descend fmt m p (k + 1 + 1) d t = some (l, t₀))
    (habs : fmt.present (m t₀ (p (k + 1 + 1))) = false)
    (hpres : fmt.present e = true) (htarget : fmt.target e = c) :
    forestWeight fmt (write m t₀ (p (k + 1 + 1)) e) α β
        ((k + 1 + 1 + d, t) :: rest) =
      forestWeight fmt m α β
        ((k + 1, c) :: (k + 1 + 1 + d, t) :: rest) := by
  have honce' : ∀ f, forestTables fmt m ((k + 1 + 1 + d, t) :: rest) f ≤ 1 := by
    intro f
    have := honce f
    rw [forestTables_cons] at this
    omega
  have hpos := Nat.lt_of_lt_of_le (tableCount_self_pos fmt m (k + 1) t₀)
    (tableCount_descend_le fmt hp h t₀)
  have hout : tableCount fmt m (k + 1) c t₀ = 0 := by
    have := honce t₀
    rw [forestTables_cons, forestTables_cons] at this
    omega
  have hwrite := forestWeight_write fmt α β hp e honce' h
  have hold : entryWeight fmt m α β (k + 1) (m t₀ (p (k + 1 + 1))) = 0 := by
    rw [entryWeight, habs]
    rfl
  have hnew : entryWeight fmt (write m t₀ (p (k + 1 + 1)) e) α β (k + 1) e =
      weight fmt m α β (k + 1) c := by
    rw [entryWeight, if_pos hpres, htarget,
      weight_write_of_not_table fmt α β _ e hout]
  rw [forestWeight_cons fmt m α β (k + 1) c]
  omega

/-- Clearing a link makes what hung under it a tree of the forest. -/
theorem forestWeight_unlink (α β : F → Nat)
    (hp : ∀ k, p k < fmt.width k) {e : W} {rest : List (Nat × F)}
    (honce : ∀ f, forestTables fmt m ((k + 1 + 1 + d, t) :: rest) f ≤ 1)
    (h : descend fmt m p (k + 1 + 1) d t = some (l, t₀))
    (hpres : fmt.present (m t₀ (p (k + 1 + 1))) = true)
    (habs : fmt.present e = false) :
    forestWeight fmt (write m t₀ (p (k + 1 + 1)) e) α β
        ((k + 1, fmt.target (m t₀ (p (k + 1 + 1)))) ::
          (k + 1 + 1 + d, t) :: rest) =
      forestWeight fmt m α β ((k + 1 + 1 + d, t) :: rest) := by
  have hself : Exclusive fmt m (k + 1 + 1) t₀ := by
    intro f
    have hle := tableCount_descend_le fmt hp h f
    have := honce f
    rw [forestTables_cons] at this
    omega
  have hout := hself.entry_self fmt (hp (k + 1 + 1))
  rw [entryTableCount, entryWeight, if_pos hpres] at hout
  have hwrite := forestWeight_write fmt α β hp e honce h
  have hold : entryWeight fmt m α β (k + 1) (m t₀ (p (k + 1 + 1))) =
      weight fmt m α β (k + 1) (fmt.target (m t₀ (p (k + 1 + 1)))) := by
    rw [entryWeight, if_pos hpres]
  have hnew : entryWeight fmt (write m t₀ (p (k + 1 + 1)) e) α β (k + 1) e =
      0 := by
    rw [entryWeight, habs]
    rfl
  have hchild := weight_write_of_not_table fmt α β (p (k + 1 + 1)) e hout
  rw [forestWeight_cons fmt _ α β (k + 1)]
  omega

/-- The other trees do not contain the table a path of the first one reaches. -/
theorem not_table_of_rest (hp : ∀ k, p k < fmt.width k) {rest : List (Nat × F)}
    (honce : ∀ f, forestTables fmt m ((k + 1 + d, t) :: rest) f ≤ 1)
    (h : descend fmt m p (k + 1) d t = some (l, t₀))
    {x : Nat × F} (hx : x ∈ rest) : tableCount fmt m x.1 x.2 t₀ = 0 := by
  have hself := Nat.lt_of_lt_of_le (tableCount_self_pos fmt m k t₀)
    (tableCount_descend_le fmt hp h t₀)
  have hle := tableCount_le_forestTables fmt m hx t₀
  have := honce t₀
  rw [forestTables_cons] at this
  omega

theorem exclusive_of_once {rest : List (Nat × F)}
    (honce : ∀ f, forestTables fmt m ((h, t) :: rest) f ≤ 1) :
    Exclusive fmt m h t := by
  intro f
  have := honce f
  rw [forestTables_cons] at this
  omega

/-- Replacing a word behind which no leaf is present by another such word
changes no leaf word. -/
theorem leafWord_keep (hp : ∀ k, p k < fmt.width k) (e : W) {rest : List (Nat × F)}
    (honce : ∀ f, forestTables fmt m ((k + 1 + 1 + d, t) :: rest) f ≤ 1)
    (h : descend fmt m p (k + 1 + 1) d t = some (l, t₀))
    (hold : ∀ q, (∀ k, q k < fmt.width k) → q (k + 1 + 1) = p (k + 1 + 1) →
      leafWord fmt m q (k + 1 + 1) t₀ = none)
    (hnew : ∀ q, (∀ k, q k < fmt.width k) → fmt.present e = true →
      leafWord fmt (write m t₀ (p (k + 1 + 1)) e) q (k + 1) (fmt.target e) =
        none) :
    ∀ x ∈ (k + 1 + 1 + d, t) :: rest, ∀ q, (∀ k, q k < fmt.width k) →
      leafWord fmt (write m t₀ (p (k + 1 + 1)) e) q x.1 x.2 =
        leafWord fmt m q x.1 x.2 := by
  have hex := exclusive_of_once fmt honce
  intro x hx q hq
  rcases List.mem_cons.mp hx with rfl | hx
  · by_cases hsame : ∀ j, k + 1 < j → j ≤ k + 1 + 1 + d → q j = p j
    · have hq₀ := h
      rw [descend_path_congr fmt (q := q)
        fun j hlo hhi => (hsame j (by omega) hhi).symm] at hq₀
      change leafWord fmt _ q (k + 1 + 1 + d) t =
        leafWord fmt _ q (k + 1 + 1 + d) t
      rw [leafWord_write_link fmt hp e hex h hsame,
        leafWord_of_descend fmt hq₀,
        hold q hq (hsame _ (by omega) (by omega))]
      split
      · rename_i hpres
        exact hnew q hq hpres
      · rfl
    · simp only [not_forall] at hsame
      obtain ⟨j, hlo, hhi, hne⟩ := hsame
      exact leafWord_write_of_ne fmt hp hq e hex h ⟨j, hlo, hhi, hne⟩
  · exact leafWord_write_of_not_table fmt hq _ e
      (not_table_of_rest fmt hp honce h hx)

/-- Changing a link but not its target changes no leaf word. -/
theorem leafWord_setLink (hp : ∀ k, p k < fmt.width k) {e : W} {rest : List (Nat × F)}
    (honce : ∀ f, forestTables fmt m ((k + 1 + 1 + d, t) :: rest) f ≤ 1)
    (h : descend fmt m p (k + 1 + 1) d t = some (l, t₀))
    (hpres : fmt.present e = fmt.present (m t₀ (p (k + 1 + 1))))
    (htarget : fmt.target e = fmt.target (m t₀ (p (k + 1 + 1)))) :
    ∀ x ∈ (k + 1 + 1 + d, t) :: rest, ∀ q, (∀ k, q k < fmt.width k) →
      leafWord fmt (write m t₀ (p (k + 1 + 1)) e) q x.1 x.2 =
        leafWord fmt m q x.1 x.2 := by
  have hex := exclusive_of_once fmt honce
  intro x hx q hq
  rcases List.mem_cons.mp hx with rfl | hx
  · by_cases hsame : ∀ j, k + 1 < j → j ≤ k + 1 + 1 + d → q j = p j
    · have hq₀ := h
      rw [descend_path_congr fmt (q := q)
        fun j hlo hhi => (hsame j (by omega) hhi).symm] at hq₀
      have hself : Exclusive fmt m (k + 1 + 1) t₀ := fun f =>
        (tableCount_descend_le fmt hp h f).trans (hex f)
      have hout := hself.entry_self fmt (hp (k + 1 + 1))
      change leafWord fmt _ q (k + 1 + 1 + d) t =
        leafWord fmt _ q (k + 1 + 1 + d) t
      rw [leafWord_write_link fmt hp e hex h hsame,
        leafWord_of_descend fmt hq₀, leafWord_succ,
        hsame (k + 1 + 1) (by omega) (by omega), hpres, htarget]
      split
      · rename_i hin
        rw [entryTableCount, entryWeight, if_pos hin] at hout
        exact leafWord_write_of_not_table fmt hq _ e hout
      · rfl
    · simp only [not_forall] at hsame
      obtain ⟨j, hlo, hhi, hne⟩ := hsame
      exact leafWord_write_of_ne fmt hp hq e hex h ⟨j, hlo, hhi, hne⟩
  · exact leafWord_write_of_not_table fmt hq _ e
      (not_table_of_rest fmt hp honce h hx)

/-- Writing a leaf word changes what its own path ends in, and no other. -/
theorem leafWord_setLeaf (hp : ∀ k, p k < fmt.width k) (e : W) {rest : List (Nat × F)}
    (honce : ∀ f, forestTables fmt m ((0 + 1 + d, t) :: rest) f ≤ 1)
    (h : descend fmt m p 1 d t = some (l, t₀)) :
    (∀ q, (∀ j, 0 < j → j ≤ 0 + 1 + d → q j = p j) →
      leafWord fmt (write m t₀ (p 1) e) q (0 + 1 + d) t =
        if fmt.present e then some e else none) ∧
    (∀ q, (∀ k, q k < fmt.width k) →
      (∃ j, 0 < j ∧ j ≤ 0 + 1 + d ∧ q j ≠ p j) →
      leafWord fmt (write m t₀ (p 1) e) q (0 + 1 + d) t =
        leafWord fmt m q (0 + 1 + d) t) ∧
    (∀ x ∈ rest, ∀ q, (∀ k, q k < fmt.width k) →
      leafWord fmt (write m t₀ (p 1) e) q x.1 x.2 =
        leafWord fmt m q x.1 x.2) := by
  have hex := exclusive_of_once fmt honce
  refine ⟨?_, ?_, ?_⟩
  · intro q hsame
    have hex₁ : Exclusive fmt m (1 + d) t := by rwa [Nat.zero_add] at hex
    have := leafWord_write_leaf fmt hp e hex₁ h
      (q := q) fun j hlo hhi => hsame j hlo (by omega)
    rwa [Nat.zero_add]
  · intro q hq hdiff
    exact leafWord_write_of_ne fmt (k := 0) hp hq e hex h hdiff
  · intro x hx q hq
    exact leafWord_write_of_not_table fmt hq _ e
      (not_table_of_rest fmt (k := 0) hp honce h hx)

/-- Hanging a tree under a word: what the parent then shows, and the rest. -/
theorem leafWord_link (hp : ∀ k, p k < fmt.width k) {e : W} {c : F} {rest : List (Nat × F)}
    (honce : ∀ f, forestTables fmt m
      ((k + 1, c) :: (k + 1 + 1 + d, t) :: rest) f ≤ 1)
    (h : descend fmt m p (k + 1 + 1) d t = some (l, t₀))
    (hpres : fmt.present e = true) (htarget : fmt.target e = c) :
    (∀ q, (∀ k, q k < fmt.width k) →
      (∀ j, k + 1 < j → j ≤ k + 1 + 1 + d → q j = p j) →
      leafWord fmt (write m t₀ (p (k + 1 + 1)) e) q (k + 1 + 1 + d) t =
        leafWord fmt m q (k + 1) c) ∧
    (∀ q, (∀ k, q k < fmt.width k) →
      (∃ j, k + 1 < j ∧ j ≤ k + 1 + 1 + d ∧ q j ≠ p j) →
      leafWord fmt (write m t₀ (p (k + 1 + 1)) e) q (k + 1 + 1 + d) t =
        leafWord fmt m q (k + 1 + 1 + d) t) ∧
    (∀ x ∈ rest, ∀ q, (∀ k, q k < fmt.width k) →
      leafWord fmt (write m t₀ (p (k + 1 + 1)) e) q x.1 x.2 =
        leafWord fmt m q x.1 x.2) := by
  have honce' : ∀ f, forestTables fmt m ((k + 1 + 1 + d, t) :: rest) f ≤ 1 := by
    intro f
    have := honce f
    rw [forestTables_cons] at this
    omega
  have hex := exclusive_of_once fmt honce'
  have hself := Nat.lt_of_lt_of_le (tableCount_self_pos fmt m (k + 1) t₀)
    (tableCount_descend_le fmt hp h t₀)
  refine ⟨?_, ?_, ?_⟩
  · intro q hq hsame
    rw [leafWord_write_link fmt hp e hex h hsame, if_pos hpres, htarget]
    apply leafWord_write_of_not_table fmt hq
    have := honce t₀
    rw [forestTables_cons, forestTables_cons] at this
    omega
  · intro q hq hdiff
    exact leafWord_write_of_ne fmt hp hq e hex h hdiff
  · intro x hx q hq
    exact leafWord_write_of_not_table fmt hq _ _
      (not_table_of_rest fmt hp honce' h hx)

/-- A word outside the part of a table that is looked at. -/
theorem forestWeight_write_outside (α β : F → Nat) (e : W) {i : Nat} (hi : fmt.width (h + 1) ≤ i)
    {rest : List (Nat × F)}
    (honce : ∀ f, forestTables fmt m ((h + 1, t) :: rest) f ≤ 1) :
    forestWeight fmt (write m t i e) α β ((h + 1, t) :: rest) =
      forestWeight fmt m α β ((h + 1, t) :: rest) := by
  have hex := exclusive_of_once fmt honce
  have hself := tableCount_self_pos fmt m h t
  have htree : weight fmt (write m t i e) α β (h + 1) t =
      weight fmt m α β (h + 1) t := by
    rw [weight_succ, weight_succ]
    congr 1
    apply sum_congr rfl
    intro j hj
    have hj := mem_range.mp hj
    rw [write_word_ne m t t e (by omega)]
    exact entryWeight_write_of_not_table fmt α β i e (hex.entry_self fmt hj)
  have hrest : forestWeight fmt (write m t i e) α β rest =
      forestWeight fmt m α β rest := by
    apply forestWeight_congr
    intro f hf j
    apply write_frame_ne
    rintro rfl
    have := honce f
    rw [forestTables_cons] at this
    omega
  rw [forestWeight_cons, forestWeight_cons, htree, hrest]

theorem leafWord_write_outside (e : W)
    {i : Nat} (hi : fmt.width (h + 1) ≤ i) {rest : List (Nat × F)}
    (honce : ∀ f, forestTables fmt m ((h + 1, t) :: rest) f ≤ 1) :
    ∀ x ∈ (h + 1, t) :: rest, ∀ q, (∀ k, q k < fmt.width k) →
      leafWord fmt (write m t i e) q x.1 x.2 = leafWord fmt m q x.1 x.2 := by
  have hex := exclusive_of_once fmt honce
  have hself := tableCount_self_pos fmt m h t
  intro x hx q hq
  rcases List.mem_cons.mp hx with rfl | hx
  · have hword : write m t i e t (q (h + 1)) = m t (q (h + 1)) :=
      write_word_ne m t t e (by
        have := hq (h + 1)
        omega)
    change (trail fmt _ q (h + 1) t).bind _ = (trail fmt _ q (h + 1) t).bind _
    rw [trail_succ, trail_succ, hword]
    split
    · rename_i hpres
      rw [trail_write_of_not_table fmt hq]
      have := hex.entry_self fmt (hq (h + 1))
      rw [entryTableCount, entryWeight, if_pos hpres] at this
      exact this
    · rfl
  · apply leafWord_write_of_not_table fmt hq
    have hle := tableCount_le_forestTables fmt m hx t
    have := honce t
    rw [forestTables_cons] at this
    omega

end Forest

end Radix

end GlitchedOS
