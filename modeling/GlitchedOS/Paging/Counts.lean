/-
Exact frame counts.  The live page tables form a forest of radix trees; a frame
is counted once when it is held by a kernel owner or is a table of the forest,
and once more for each leaf that maps it.  `Counted` says that `memory_bitmap`
holds exactly these numbers, and the lemmas say that each elementary change the
paging code makes keeps it so.
-/
import GlitchedOS.Paging.Model

namespace GlitchedOS

open Radix

/-- The four-level format.  Only the lower half of a PML4 belongs to the address
space; height `1` is a PT and height `4` a PML4. -/
def pageFormat : Radix.Format Nat Word where
  present := present
  target := frameOf
  width h := if h = 4 then 256 else 512

/-- The indices of a virtual address by height. -/
def vpath (addr : Nat) : Nat → Nat
  | 1 => (getPageEntry addr).ptIndex
  | 2 => (getPageEntry addr).pdIndex
  | 3 => (getPageEntry addr).pdptIndex
  | 4 => (getPageEntry addr).pml4Index
  | _ => 0

theorem vpath_pt (addr : Nat) : vpath addr 1 = (getPageEntry addr).ptIndex := rfl
theorem vpath_pd (addr : Nat) : vpath addr 2 = (getPageEntry addr).pdIndex := rfl
theorem vpath_pdpt (addr : Nat) : vpath addr 3 = (getPageEntry addr).pdptIndex := rfl
theorem vpath_pml4 (addr : Nat) : vpath addr 4 = (getPageEntry addr).pml4Index := rfl

/-- A path whose indices are in range at every height. -/
def InRange (p : Nat → Nat) : Prop := ∀ k, p k < pageFormat.width k

/-- One past the last address of the lower half. -/
def lowerHalf : Nat := 2 ^ 47

theorem vpath_inRange {addr : Nat} (haddr : addr < lowerHalf) :
    InRange (vpath addr) := by
  intro k
  match k with
  | 0 => exact (by decide : 0 < 512)
  | 1 => exact Nat.mod_lt _ (by decide)
  | 2 => exact Nat.mod_lt _ (by decide)
  | 3 => exact Nat.mod_lt _ (by decide)
  | 4 =>
      change addr / 2 ^ 39 % 512 < 256
      simp only [lowerHalf] at haddr
      omega
  | k + 5 =>
      change 0 < if k + 5 = 4 then 256 else 512
      rw [if_neg (by omega)]
      decide

/-- `memory_bitmap` is exact for the forest `trees` and the frames `held`. -/
structure Counted (s : PhysMem) (held : Nat → Nat)
    (trees : List (Nat × Nat)) : Prop where
  /-- A held frame or a table has one owner. -/
  once : ∀ f, held f + forestTables pageFormat s.mem trees f ≤ 1
  exact : ∀ f < s.usablePageCount, s.memoryBitmap f =
    held f + forestTables pageFormat s.mem trees f +
      forestLeaves pageFormat s.mem trees f
  held_lt : ∀ f, 0 < held f → f < s.usablePageCount
  leaf_lt : ∀ f, 0 < forestLeaves pageFormat s.mem trees f →
    f < s.usablePageCount
  table_lt : ∀ f, 0 < forestTables pageFormat s.mem trees f →
    f < s.usablePageCount ∨ f ∈ trees.map Prod.snd

variable {s s' s'' : PhysMem} {held : Nat → Nat} {trees rest : List (Nat × Nat)}

namespace PhysMem

@[simp] theorem writeWord_mem (s : PhysMem) (t i : Nat) (e : Word) :
    (s.writeWord t i e).mem = Radix.write s.mem t i e := rfl
@[simp] theorem writeWord_memoryBitmap (s : PhysMem) (t i : Nat) (e : Word) :
    (s.writeWord t i e).memoryBitmap = s.memoryBitmap := rfl
@[simp] theorem writeWord_usablePageCount (s : PhysMem) (t i : Nat) (e : Word) :
    (s.writeWord t i e).usablePageCount = s.usablePageCount := rfl
@[simp] theorem writeWord_zeroPage (s : PhysMem) (t i : Nat) (e : Word) :
    (s.writeWord t i e).zeroPage = s.zeroPage := rfl

@[simp] theorem incCount_mem (s : PhysMem) (f : Nat) :
    (s.incCount f).mem = s.mem := rfl
@[simp] theorem incCount_usablePageCount (s : PhysMem) (f : Nat) :
    (s.incCount f).usablePageCount = s.usablePageCount := rfl
@[simp] theorem incCount_zeroPage (s : PhysMem) (f : Nat) :
    (s.incCount f).zeroPage = s.zeroPage := rfl

theorem incCount_memoryBitmap (s : PhysMem) {f : Nat}
    (hroom : s.memoryBitmap f + 1 < 2 ^ 32) (g : Nat) :
    (s.incCount f).memoryBitmap g =
      s.memoryBitmap g + if f = g then 1 else 0 := by
  simp only [incCount, setCount, Nat.mod_eq_of_lt hroom]
  by_cases hg : g = f
  · simp [hg]
  · simp [hg, Ne.symm hg]

theorem decCount_eq (s : PhysMem) (f : Nat) :
    s.decCount f = { s with
      memoryBitmap := fun g => s.memoryBitmap g - if f = g then 1 else 0
      firstUsable := if s.memoryBitmap f ≤ 1 ∧ f < s.firstUsable then f
        else s.firstUsable } := by
  have hset : (if 0 < s.memoryBitmap f then s.setCount f (s.memoryBitmap f - 1)
      else s) = { s with
        memoryBitmap := fun g => s.memoryBitmap g - if f = g then 1 else 0 } := by
    have hbitmap : ∀ n, (n = s.memoryBitmap f - 1) →
        (fun g => if g = f then n else s.memoryBitmap g) =
          fun g => s.memoryBitmap g - if f = g then 1 else 0 := by
      intro n hn
      funext g
      by_cases hg : g = f
      · simp [hg, hn]
      · simp [hg, Ne.symm hg]
    split
    · rw [setCount, hbitmap _ rfl]
    · rename_i hzero
      rw [← hbitmap (s.memoryBitmap f) (by omega)]
      have hsame : (fun g => if g = f then s.memoryBitmap f
          else s.memoryBitmap g) = s.memoryBitmap := by
        funext g
        split
        · rename_i hg
          rw [hg]
        · rfl
      rw [hsame]
  unfold decCount
  dsimp only
  rw [hset]
  dsimp only
  simp only [if_true, Nat.sub_eq_zero_iff_le]
  split <;> rfl

@[simp] theorem decCount_mem (s : PhysMem) (f : Nat) :
    (s.decCount f).mem = s.mem := by
  rw [decCount_eq]

@[simp] theorem decCount_usablePageCount (s : PhysMem) (f : Nat) :
    (s.decCount f).usablePageCount = s.usablePageCount := by
  rw [decCount_eq]

@[simp] theorem decCount_zeroPage (s : PhysMem) (f : Nat) :
    (s.decCount f).zeroPage = s.zeroPage := by
  rw [decCount_eq]

theorem decCount_memoryBitmap (s : PhysMem) (f g : Nat) :
    (s.decCount f).memoryBitmap g =
      s.memoryBitmap g - if f = g then 1 else 0 := by
  rw [decCount_eq]

end PhysMem

theorem findAvailable_some {bitmap : Nat → Nat} :
    ∀ {n i f : Nat}, findAvailable bitmap n i = some f →
      i ≤ f ∧ f < i + n ∧ bitmap f = 0 ∧ ∀ j, i ≤ j → j < f → bitmap j ≠ 0
  | 0, i, f, h => by cases h
  | n + 1, i, f, h => by
      rw [findAvailable] at h
      split at h
      · rename_i hzero
        obtain rfl := Option.some.inj h
        exact ⟨Nat.le_refl _, by omega, hzero, fun j hlo hhi => by omega⟩
      · rename_i hne
        obtain ⟨hlo, hhi, hzero, hbelow⟩ := findAvailable_some h
        refine ⟨by omega, by omega, hzero, fun j hjlo hjhi => ?_⟩
        rcases Nat.eq_or_lt_of_le hjlo with rfl | hlt
        · exact hne
        · exact hbelow j hlt hjhi

theorem getAvailableAddress_ok {f : Nat}
    (h : getAvailableAddress s = .ok (f, s')) :
    f < s.usablePageCount ∧ s.memoryBitmap f = 0 ∧
      s' = { s with firstUsable := f + 1 } := by
  rw [getAvailableAddress] at h
  split at h
  · rename_i i hfind
    cases h
    obtain ⟨hlo, hhi, hzero, -⟩ := findAvailable_some hfind
    exact ⟨by omega, hzero, rfl⟩
  · cases h

theorem bind_ok {α β : Type} {x : Except Panic α} {f : α → Except Panic β}
    {b : β} : (x >>= f) = .ok b ↔ ∃ a, x = .ok a ∧ f a = .ok b := by
  cases x with
  | error e => simp [bind, Except.bind]
  | ok a => simp [bind, Except.bind]

theorem allocatePhysicalPage_ok {f : Nat}
    (h : allocatePhysicalPage s = .ok (f, s')) :
    f < s.usablePageCount ∧ s.memoryBitmap f = 0 ∧
      s' = (PhysMem.incCount { s with firstUsable := f + 1 } f).zeroFrame f := by
  rw [allocatePhysicalPage, bind_ok] at h
  obtain ⟨⟨g, s₁⟩, hget, h⟩ := h
  obtain ⟨rfl, rfl⟩ := Prod.mk.inj (Except.ok.inj h)
  obtain ⟨hlt, hzero, rfl⟩ := getAvailableAddress_ok hget
  exact ⟨hlt, hzero, rfl⟩

namespace Counted

theorem perm (hc : Counted s held trees) {trees' : List (Nat × Nat)}
    (hperm : trees.Perm trees') : Counted s held trees' := by
  have htables : ∀ f, forestTables pageFormat s.mem trees' f =
      forestTables pageFormat s.mem trees f :=
    fun f => (forestWeight_perm pageFormat s.mem _ _ hperm).symm
  have hleaves : ∀ f, forestLeaves pageFormat s.mem trees' f =
      forestLeaves pageFormat s.mem trees f :=
    fun f => (forestWeight_perm pageFormat s.mem _ _ hperm).symm
  refine ⟨?_, ?_, hc.held_lt, ?_, ?_⟩
  · intro f
    rw [htables]
    exact hc.once f
  · intro f hf
    rw [htables, hleaves]
    exact hc.exact f hf
  · intro f hf
    rw [hleaves] at hf
    exact hc.leaf_lt f hf
  · intro f hf
    rw [htables] at hf
    exact (hc.table_lt f hf).imp_right (hperm.map Prod.snd).mem_iff.mp

/-- A frame with count 0 is neither held nor a table nor mapped. -/
theorem fresh (hc : Counted s held trees) {f : Nat}
    (hf : f < s.usablePageCount) (hzero : s.memoryBitmap f = 0) :
    held f = 0 ∧ forestTables pageFormat s.mem trees f = 0 ∧
      forestLeaves pageFormat s.mem trees f = 0 := by
  have := hc.exact f hf
  omega

theorem exclusive {k d t : Nat}
    (hc : Counted s held ((k + 1 + d, t) :: rest)) :
    Exclusive pageFormat s.mem (k + 1 + d) t := by
  intro f
  have := hc.once f
  rw [forestTables_cons] at this
  omega

theorem tables_le_one (hc : Counted s held trees) (f : Nat) :
    forestTables pageFormat s.mem trees f ≤ 1 := by
  have := hc.once f
  omega

/-- Any memory that agrees on the tables of the forest is counted alike. -/
theorem memCongr (hc : Counted s held trees)
    (hagree : ∀ f, 0 < forestTables pageFormat s.mem trees f →
      ∀ i, s'.mem f i = s.mem f i)
    (hbitmap : s'.memoryBitmap = s.memoryBitmap)
    (husable : s'.usablePageCount = s.usablePageCount) :
    Counted s' held trees := by
  have htables : ∀ f, forestTables pageFormat s'.mem trees f =
      forestTables pageFormat s.mem trees f :=
    fun f => forestWeight_congr pageFormat _ _ hagree
  have hleaves : ∀ f, forestLeaves pageFormat s'.mem trees f =
      forestLeaves pageFormat s.mem trees f :=
    fun f => forestWeight_congr pageFormat _ _ hagree
  refine ⟨?_, ?_, ?_, ?_, ?_⟩
  · intro f
    rw [htables]
    exact hc.once f
  · intro f hf
    rw [htables, hleaves, hbitmap]
    exact hc.exact f (husable ▸ hf)
  · rw [husable]
    exact hc.held_lt
  · intro f hf
    rw [hleaves] at hf
    rw [husable]
    exact hc.leaf_lt f hf
  · intro f hf
    rw [htables] at hf
    rw [husable]
    exact hc.table_lt f hf

/-- A new zeroed frame joins the forest as an empty table of any height. -/
theorem allocatePhysicalPage (hc : Counted s held trees) {f : Nat}
    (h : allocatePhysicalPage s = .ok (f, s')) (k : Nat) :
    Counted s' held ((k + 1, f) :: trees) := by
  obtain ⟨hlt, hzero, rfl⟩ := allocatePhysicalPage_ok h
  obtain ⟨hheld, htables, hleaves⟩ := hc.fresh hlt hzero
  set s' := (PhysMem.incCount { s with firstUsable := f + 1 } f).zeroFrame f
  have hagree : ∀ g, 0 < forestTables pageFormat s.mem trees g →
      ∀ i, s'.mem g i = s.mem g i := by
    intro g hg i
    have hne : g ≠ f := by
      rintro rfl
      omega
    simp [s', PhysMem.zeroFrame, hne]
  have hempty : ∀ i < pageFormat.width (k + 1),
      pageFormat.present (s'.mem f i) = false := by
    intro i _
    simp [s', PhysMem.zeroFrame, pageFormat, present, hasFlag]
  have hbitmap : ∀ g, s'.memoryBitmap g =
      s.memoryBitmap g + if f = g then 1 else 0 :=
    PhysMem.incCount_memoryBitmap { s with firstUsable := f + 1 }
      (by simp [hzero])
  have htab : ∀ g, forestTables pageFormat s'.mem ((k + 1, f) :: trees) g =
      (if f = g then 1 else 0) + forestTables pageFormat s.mem trees g := by
    intro g
    rw [forestTables_cons, tableCount, weight_of_empty pageFormat _ _ hempty]
    congr 1
    exact forestWeight_congr pageFormat _ _ hagree
  have hleaf : ∀ g, forestLeaves pageFormat s'.mem ((k + 1, f) :: trees) g =
      forestLeaves pageFormat s.mem trees g := by
    intro g
    rw [forestLeaves_cons, leafCount, weight_of_empty pageFormat _ _ hempty,
      Nat.zero_add]
    exact forestWeight_congr pageFormat _ _ hagree
  refine ⟨?_, ?_, hc.held_lt, ?_, ?_⟩
  · intro g
    rw [htab]
    by_cases hg : f = g
    · subst hg
      simp [hheld, htables]
    · rw [if_neg hg]
      have := hc.once g
      omega
  · intro g hg
    rw [htab, hleaf, hbitmap, hc.exact g hg]
    omega
  · intro g hg
    rw [hleaf] at hg
    exact hc.leaf_lt g hg
  · intro g hg
    rw [htab] at hg
    by_cases hfg : f = g
    · exact Or.inl (hfg ▸ hlt)
    · rw [if_neg hfg, Nat.zero_add] at hg
      exact (hc.table_lt g hg).imp_right fun hmem => List.mem_cons_of_mem _ hmem

theorem forestTables_setLeaf {d t pt : Nat} {l : List Word} {p : Nat → Nat}
    (hc : Counted s held ((0 + 1 + d, t) :: rest)) (hp : InRange p)
    (hd : descend pageFormat s.mem p 1 d t = some (l, pt)) (e : Word)
    (f : Nat) :
    forestTables pageFormat (write s.mem pt (p 1) e)
        ((0 + 1 + d, t) :: rest) f =
      forestTables pageFormat s.mem ((0 + 1 + d, t) :: rest) f := by
  have := forestWeight_write pageFormat (fun x => if x = f then 1 else 0)
    (fun _ => 0) hp e hc.tables_le_one hd
  rw [forestTables, forestTables]
  simpa only [entryWeight, weight, ite_self, Nat.add_zero] using this

/-- An empty table of the forest given to a kernel owner instead. -/
theorem own {k f : Nat} (hc : Counted s held ((k + 1, f) :: trees))
    (hlt : f < s.usablePageCount)
    (hempty : ∀ i < pageFormat.width (k + 1), present (s.mem f i) = false) :
    Counted s (fun g => held g + if f = g then 1 else 0) trees := by
  have htab : ∀ g, forestTables pageFormat s.mem ((k + 1, f) :: trees) g =
      (if f = g then 1 else 0) + forestTables pageFormat s.mem trees g := by
    intro g
    rw [forestTables_cons, tableCount, weight_of_empty pageFormat _ _ hempty]
  have hleaf : ∀ g, forestLeaves pageFormat s.mem ((k + 1, f) :: trees) g =
      forestLeaves pageFormat s.mem trees g := by
    intro g
    rw [forestLeaves_cons, leafCount, weight_of_empty pageFormat _ _ hempty,
      Nat.zero_add]
  refine ⟨?_, ?_, ?_, ?_, ?_⟩
  · intro g
    have := hc.once g
    rw [htab] at this
    omega
  · intro g hg
    have := hc.exact g hg
    rw [htab, hleaf] at this
    omega
  · intro g hg
    by_cases hfg : f = g
    · exact hfg ▸ hlt
    · rw [if_neg hfg] at hg
      exact hc.held_lt g hg
  · intro g hg
    exact hc.leaf_lt g (by rwa [hleaf])
  · intro g hg
    have hpos : 0 < forestTables pageFormat s.mem ((k + 1, f) :: trees) g := by
      rw [htab]
      omega
    rcases hc.table_lt g hpos with hbelow | hmem
    · exact Or.inl hbelow
    · rcases List.mem_cons.mp hmem with rfl | hmem
      · exact Or.inl hlt
      · exact Or.inr hmem

/-- One leaf word written, with the counts moved from the old frame to the new
one. -/
theorem setLeaf {d t pt : Nat} {l : List Word} {p : Nat → Nat}
    (hc : Counted s held ((0 + 1 + d, t) :: rest)) (hp : InRange p)
    (hd : descend pageFormat s.mem p 1 d t = some (l, pt)) (e : Word)
    (hmem : s'.mem = write s.mem pt (p 1) e)
    (husable : s'.usablePageCount = s.usablePageCount)
    (hcount : ∀ f < s.usablePageCount,
      s'.memoryBitmap f +
          (if present (s.mem pt (p 1)) then
            if frameOf (s.mem pt (p 1)) = f then 1 else 0 else 0) =
        s.memoryBitmap f +
          (if present e then if frameOf e = f then 1 else 0 else 0))
    (hlt : present e = true → frameOf e < s.usablePageCount) :
    Counted s' held ((0 + 1 + d, t) :: rest) := by
  have htab : ∀ f, forestTables pageFormat s'.mem ((0 + 1 + d, t) :: rest) f =
      forestTables pageFormat s.mem ((0 + 1 + d, t) :: rest) f := by
    intro f
    rw [hmem]
    exact hc.forestTables_setLeaf hp hd e f
  have hleaf : ∀ f, forestLeaves pageFormat s'.mem ((0 + 1 + d, t) :: rest) f +
        (if present (s.mem pt (p 1)) then
          if frameOf (s.mem pt (p 1)) = f then 1 else 0 else 0) =
      forestLeaves pageFormat s.mem ((0 + 1 + d, t) :: rest) f +
        (if present e then if frameOf e = f then 1 else 0 else 0) := by
    intro f
    rw [hmem]
    exact forestWeight_write pageFormat (fun _ => 0)
      (fun x => if x = f then 1 else 0) hp e hc.tables_le_one hd
  refine ⟨?_, ?_, ?_, ?_, ?_⟩
  · intro f
    rw [htab]
    exact hc.once f
  · intro f hf
    rw [husable] at hf
    rw [htab]
    have h1 := hcount f hf
    have h2 := hleaf f
    have h3 := hc.exact f hf
    omega
  · rw [husable]
    exact hc.held_lt
  · intro f hf
    rw [husable]
    by_cases he : present e = true ∧ frameOf e = f
    · exact he.2 ▸ hlt he.1
    · apply hc.leaf_lt
      have h2 := hleaf f
      have hnone : (if present e then if frameOf e = f then 1 else 0 else 0)
          = 0 := by
        by_cases hpres : present e = true
        · rw [if_pos hpres, if_neg fun hfe => he ⟨hpres, hfe⟩]
        · rw [if_neg hpres]
      omega
  · intro f hf
    rw [htab] at hf
    rw [husable]
    exact hc.table_lt f hf

/-- Hanging a tree of the forest under an absent word. -/
theorem link {k d t c t₀ : Nat} {l : List Word} {p : Nat → Nat}
    (hc : Counted s held ((k + 1, c) :: (k + 1 + 1 + d, t) :: rest))
    (hp : InRange p)
    (hd : descend pageFormat s.mem p (k + 1 + 1) d t = some (l, t₀))
    (habs : present (s.mem t₀ (p (k + 1 + 1))) = false) {e : Word}
    (hpres : present e = true) (htarget : frameOf e = c)
    (hlt : c < s.usablePageCount) :
    Counted (s.writeWord t₀ (p (k + 1 + 1)) e) held
      ((k + 1 + 1 + d, t) :: rest) := by
  have hforest : ∀ α β, forestWeight pageFormat
        (write s.mem t₀ (p (k + 1 + 1)) e) α β ((k + 1 + 1 + d, t) :: rest) =
      forestWeight pageFormat s.mem α β
        ((k + 1, c) :: (k + 1 + 1 + d, t) :: rest) := fun α β =>
    forestWeight_link pageFormat α β hp hc.tables_le_one hd habs hpres htarget
  refine ⟨?_, ?_, hc.held_lt, ?_, ?_⟩
  · intro f
    have := hc.once f
    rw [forestTables, ← hforest] at this
    exact this
  · intro f hf
    have := hc.exact f hf
    rw [forestTables, forestLeaves, ← hforest, ← hforest] at this
    exact this
  · intro f hf
    apply hc.leaf_lt f
    rw [forestLeaves, ← hforest]
    exact hf
  · intro f hf
    have hold : 0 < forestTables pageFormat s.mem
        ((k + 1, c) :: (k + 1 + 1 + d, t) :: rest) f := by
      rw [forestTables, ← hforest]
      exact hf
    rcases hc.table_lt f hold with hbelow | hmem
    · exact Or.inl hbelow
    · rcases List.mem_cons.mp hmem with rfl | hmem
      · exact Or.inl hlt
      · exact Or.inr hmem

/-- Taking a tree off its link makes it a tree of the forest. -/
theorem unlink {k d t t₀ : Nat} {l : List Word} {p : Nat → Nat}
    (hc : Counted s held ((k + 1 + 1 + d, t) :: rest)) (hp : InRange p)
    (hd : descend pageFormat s.mem p (k + 1 + 1) d t = some (l, t₀))
    (hpres : present (s.mem t₀ (p (k + 1 + 1))) = true) :
    Counted (s.writeWord t₀ (p (k + 1 + 1)) 0#64) held
      ((k + 1, frameOf (s.mem t₀ (p (k + 1 + 1)))) ::
        (k + 1 + 1 + d, t) :: rest) := by
  have hforest : ∀ α β, forestWeight pageFormat
        (write s.mem t₀ (p (k + 1 + 1)) 0#64) α β
        ((k + 1, frameOf (s.mem t₀ (p (k + 1 + 1)))) ::
          (k + 1 + 1 + d, t) :: rest) =
      forestWeight pageFormat s.mem α β ((k + 1 + 1 + d, t) :: rest) :=
    fun α β => forestWeight_unlink pageFormat α β hp hc.tables_le_one hd hpres
      (by decide)
  refine ⟨?_, ?_, hc.held_lt, ?_, ?_⟩
  · intro f
    rw [forestTables, PhysMem.writeWord_mem, hforest]
    exact hc.once f
  · intro f hf
    rw [forestTables, forestLeaves, PhysMem.writeWord_mem, hforest, hforest]
    exact hc.exact f hf
  · intro f hf
    rw [forestLeaves, PhysMem.writeWord_mem, hforest] at hf
    exact hc.leaf_lt f hf
  · intro f hf
    rw [forestTables, PhysMem.writeWord_mem, hforest] at hf
    exact (hc.table_lt f hf).imp_right fun hmem => List.mem_cons_of_mem _ hmem

/-- Releasing a table with no present word. -/
theorem dropEmpty {k c : Nat} (hc : Counted s held ((k + 1, c) :: rest))
    (hempty : ∀ i < pageFormat.width (k + 1), present (s.mem c i) = false) :
    Counted (s.decCount c) held rest := by
  have htab : ∀ f, forestTables pageFormat s.mem ((k + 1, c) :: rest) f =
      (if c = f then 1 else 0) + forestTables pageFormat s.mem rest f := by
    intro f
    rw [forestTables_cons, tableCount, weight_of_empty pageFormat _ _ hempty]
  have hleaf : ∀ f, forestLeaves pageFormat s.mem ((k + 1, c) :: rest) f =
      forestLeaves pageFormat s.mem rest f := by
    intro f
    rw [forestLeaves_cons, leafCount, weight_of_empty pageFormat _ _ hempty,
      Nat.zero_add]
  refine ⟨?_, ?_, ?_, ?_, ?_⟩
  · intro f
    have := hc.once f
    rw [htab] at this
    rw [PhysMem.decCount_mem]
    omega
  · intro f hf
    rw [PhysMem.decCount_usablePageCount] at hf
    have := hc.exact f hf
    rw [htab, hleaf] at this
    rw [PhysMem.decCount_mem, PhysMem.decCount_memoryBitmap]
    omega
  · rw [PhysMem.decCount_usablePageCount]
    exact hc.held_lt
  · intro f hf
    rw [PhysMem.decCount_mem] at hf
    rw [PhysMem.decCount_usablePageCount]
    exact hc.leaf_lt f (hleaf f ▸ hf)
  · intro f hf
    rw [PhysMem.decCount_mem] at hf
    rw [PhysMem.decCount_usablePageCount]
    have hpos : 0 < forestTables pageFormat s.mem ((k + 1, c) :: rest) f := by
      rw [htab]
      omega
    rcases hc.table_lt f hpos with hlt | hmem
    · exact Or.inl hlt
    · rcases List.mem_cons.mp hmem with rfl | hmem
      · have := hc.once f
        rw [htab, if_pos rfl] at this
        omega
      · exact Or.inr hmem

theorem sameShape (hc : Counted s held trees)
    (hshape : SameShape pageFormat s.mem s'.mem)
    (hbitmap : s'.memoryBitmap = s.memoryBitmap)
    (husable : s'.usablePageCount = s.usablePageCount) :
    Counted s' held trees := by
  have hforest : ∀ α β, forestWeight pageFormat s'.mem α β trees =
      forestWeight pageFormat s.mem α β trees := by
    intro α β
    rw [forestWeight, forestWeight]
    simp only [weight_sameShape pageFormat hshape]
  refine ⟨?_, ?_, ?_, ?_, ?_⟩
  · intro f
    rw [forestTables, hforest]
    exact hc.once f
  · intro f hf
    rw [forestTables, forestLeaves, hforest, hforest, hbitmap]
    exact hc.exact f (husable ▸ hf)
  · rw [husable]
    exact hc.held_lt
  · intro f hf
    rw [forestLeaves, hforest] at hf
    rw [husable]
    exact hc.leaf_lt f hf
  · intro f hf
    rw [forestTables, hforest] at hf
    rw [husable]
    exact hc.table_lt f hf

end Counted

end GlitchedOS
