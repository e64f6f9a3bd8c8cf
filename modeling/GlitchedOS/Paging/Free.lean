/-
Releasing memory: `free_page` with its clean-up of empty tables, `free_region`,
and `free_page_tables`.
-/
import GlitchedOS.Paging.Walk

namespace GlitchedOS

open Radix

variable {s s' s'' : PhysMem} {held : Nat → Nat} {trees rest : List (Nat × Nat)}

theorem PhysMem.decCount_writeWord (s : PhysMem) (f t i : Nat) (e : Word) :
    (s.decCount f).writeWord t i e = (s.writeWord t i e).decCount f := by
  rw [decCount_eq, decCount_eq]
  rfl

/-- What releasing tables leaves alone. -/
structure Shrinks (trees : List (Nat × Nat)) (s s' : PhysMem) : Prop where
  usable : s'.usablePageCount = s.usablePageCount
  zero : s'.zeroPage = s.zeroPage
  leaf : ∀ x ∈ trees, ∀ q, InRange q →
    leafWord pageFormat s'.mem q x.1 x.2 = leafWord pageFormat s.mem q x.1 x.2
  bitmap : ∀ f, forestTables pageFormat s.mem trees f = 0 →
    s'.memoryBitmap f = s.memoryBitmap f
  tables : ∀ f, forestTables pageFormat s'.mem trees f ≤
    forestTables pageFormat s.mem trees f
  data : ∀ f, forestTables pageFormat s.mem trees f = 0 → s'.mem f = s.mem f

theorem Shrinks.refl (trees : List (Nat × Nat)) (s : PhysMem) :
    Shrinks trees s s :=
  ⟨rfl, rfl, fun _ _ _ _ => rfl, fun _ _ => rfl, fun _ => Nat.le_refl _,
    fun _ _ => rfl⟩

theorem Shrinks.trans (h : Shrinks trees s s') (h' : Shrinks trees s' s'') :
    Shrinks trees s s'' := by
  have hzero : ∀ f, forestTables pageFormat s.mem trees f = 0 →
      forestTables pageFormat s'.mem trees f = 0 := by
    intro f hf
    have := h.tables f
    omega
  refine ⟨h'.usable.trans h.usable, h'.zero.trans h.zero, ?_, ?_, ?_, ?_⟩
  · intro x hx q hq
    exact (h'.leaf x hx q hq).trans (h.leaf x hx q hq)
  · intro f hf
    rw [h'.bitmap f (hzero f hf), h.bitmap f hf]
  · intro f
    exact (h'.tables f).trans (h.tables f)
  · intro f hf
    rw [h'.data f (hzero f hf), h.data f hf]

theorem tableEmpty_spec {t : Nat} (h : tableEmpty s t = true) {i : Nat}
    (hi : i < 512) : present (s.mem t i) = false := by
  rw [tableEmpty, List.all_eq_true] at h
  simpa using h i (List.mem_range.mpr hi)

/-- One clean-up of `free_page`: an empty table leaves the tree. -/
theorem releaseIfEmpty_spec {k d t parent table : Nat} {l l' : List Word}
    {p : Nat → Nat} (hk : k < 3)
    (hc : Counted s held ((k + 1 + 1 + d, t) :: rest)) (hp : InRange p)
    (hd : descend pageFormat s.mem p (k + 1 + 1) d t = some (l, parent))
    (hd' : descend pageFormat s.mem p (k + 1) (d + 1) t = some (l', table)) :
    let s' := releaseIfEmpty s table parent (p (k + 1 + 1))
    Counted s' held ((k + 1 + 1 + d, t) :: rest) ∧
      Shrinks ((k + 1 + 1 + d, t) :: rest) s s' ∧
      ∀ j d', j + d' = d → descend pageFormat s'.mem p (k + 1 + 1 + j) d' t =
        descend pageFormat s.mem p (k + 1 + 1 + j) d' t := by
  intro s'
  obtain ⟨_, _, hparent, hpres, htarget⟩ := descend_parent pageFormat hd'
  rw [hd] at hparent
  obtain ⟨-, rfl⟩ := Prod.mk.inj (Option.some.inj hparent)
  by_cases hempty : tableEmpty s table = true
  · have hs' : s' = (s.writeWord parent (p (k + 1 + 1)) 0#64).decCount table := by
      change (if tableEmpty s table then _ else _) = _
      rw [if_pos hempty, PhysMem.decCount_writeWord]
      exact congrArg _ htarget
    have hwidth : pageFormat.width (k + 1) = 512 := if_neg (by omega)
    have hnone : ∀ i < pageFormat.width (k + 1),
        present (s.mem table i) = false := fun i hi =>
      tableEmpty_spec hempty (hwidth ▸ hi)
    have hnone' : ∀ i < pageFormat.width (k + 1), present
        ((s.writeWord parent (p (k + 1 + 1)) 0#64).mem table i) = false := by
      intro i hi
      rw [PhysMem.writeWord_mem, write]
      split
      · exact present_zero
      · exact hnone i hi
    have hun := hc.unlink hp hd hpres
    rw [show frameOf (s.mem parent (p (k + 1 + 1))) = table from htarget] at hun
    have hforest := fun α => forestWeight_unlink pageFormat α (fun _ => 0) hp
      hc.tables_le_one hd hpres (e := 0#64) present_zero
    rw [hs']
    refine ⟨hun.dropEmpty hnone', ⟨?_, ?_, ?_, ?_, ?_, ?_⟩, ?_⟩
    · rw [PhysMem.decCount_usablePageCount]
      rfl
    · rw [PhysMem.decCount_zeroPage]
      rfl
    · intro x hx q hq
      rw [PhysMem.decCount_mem]
      refine leafWord_keep pageFormat hp 0#64 hc.tables_le_one hd ?_ ?_ x hx q hq
      · intro q hq hsame
        rw [leafWord_succ, hsame, if_pos hpres, htarget]
        exact leafWord_of_empty pageFormat (hnone _ (hq (k + 1)))
      · intro q _ hcontra
        cases hcontra
    · intro f hf
      rw [PhysMem.decCount_memoryBitmap, if_neg, Nat.sub_zero]
      · rfl
      rintro rfl
      have hpos := Nat.lt_of_lt_of_le
        (tableCount_self_pos pageFormat s.mem k table)
        (tableCount_descend_le pageFormat hp hd' table)
      have hheight : k + 1 + (d + 1) = k + 1 + 1 + d := by omega
      rw [hheight] at hpos
      rw [forestTables_cons] at hf
      omega
    · intro f
      rw [PhysMem.decCount_mem, forestTables, forestTables]
      rw [← hforest, forestWeight_cons]
      exact Nat.le_add_left _ _
    · intro f hf
      have hne : f ≠ parent := by
        rintro rfl
        have hpos := Nat.lt_of_lt_of_le
          (tableCount_self_pos pageFormat s.mem (k + 1) f)
          (tableCount_descend_le pageFormat hp hd f)
        rw [forestTables_cons] at hf
        omega
      funext i
      rw [PhysMem.decCount_mem, PhysMem.writeWord_mem,
        write_frame_ne _ _ _ hne]
    · rintro j d' rfl
      rw [PhysMem.decCount_mem]
      exact descend_write_above pageFormat hp _ 0#64
        (exclusive_of_once pageFormat hc.tables_le_one) hd
  · have hs' : s' = s := if_neg hempty
    rw [hs']
    exact ⟨hc, .refl _ _, fun _ _ _ => rfl⟩

/-! ### `free_page` -/

theorem freePage_unmapped {root page : Nat} (h : pte s root page = none) :
    freePage s root page = (-1, s) := by
  rw [pte_eq] at h
  dsimp only at h
  rw [freePage]
  split
  · rfl
  dsimp only
  split
  · rfl
  rename_i h4
  rw [if_pos (by simpa using h4)] at h
  split
  · rfl
  rename_i h3
  rw [if_pos (by simpa using h3)] at h
  split
  · rfl
  rename_i h2
  rw [if_pos (by simpa using h2)] at h
  split
  · rfl
  rename_i h1
  rw [if_pos (by simpa using h1)] at h
  cases h

theorem freePage_mapped {root page pdpt pd pt : Nat} (hpage : page ≠ 0)
    (hw : Walked s.mem root page pdpt pd pt)
    (hpres : present (s.mem pt (vpath page 1)) = true) :
    (freePage s root page).2 =
      releaseIfEmpty (releaseIfEmpty (releaseIfEmpty
        ((s.writeWord pt (vpath page 1) 0#64).decCount
          (frameOf (s.mem pt (vpath page 1))))
        pt pd (vpath page 2)) pd pdpt (vpath page 3)) pdpt root
        (vpath page 4) := by
  obtain ⟨⟨h4, rfl⟩, ⟨h3, rfl⟩, h2, rfl⟩ := hw.links
  simp only [vpath_pt, vpath_pd, vpath_pdpt, vpath_pml4] at *
  rw [freePage, if_neg hpage]
  simp only [h4, h3, h2, hpres, Bool.not_true, Bool.false_eq_true, if_false]

/-- What unmapping the page of `addr`, mapped by `e`, does. -/
structure Unmapped (root : Nat) (rest : List (Nat × Nat)) (addr : Nat)
    (e : Word) (s s' : PhysMem) : Prop where
  usable : s'.usablePageCount = s.usablePageCount
  zero : s'.zeroPage = s.zeroPage
  pte : ∀ a < lowerHalf, pte s' root a =
    if a / pageSize = addr / pageSize then none else pte s root a
  elsewhere : ∀ x ∈ rest, ∀ q, InRange q →
    leafWord pageFormat s'.mem q x.1 x.2 = leafWord pageFormat s.mem q x.1 x.2
  bitmap : ∀ f, forestTables pageFormat s.mem ((4, root) :: rest) f = 0 →
    s'.memoryBitmap f = s.memoryBitmap f - if frameOf e = f then 1 else 0
  tables : ∀ f, forestTables pageFormat s'.mem ((4, root) :: rest) f ≤
    forestTables pageFormat s.mem ((4, root) :: rest) f
  data : ∀ f, forestTables pageFormat s.mem ((4, root) :: rest) f = 0 →
    s'.mem f = s.mem f

theorem LeafSet.unmapped {root addr : Nat} {e : Word}
    (hset : LeafSet root rest (vpath addr) none s s') (haddr : addr < lowerHalf)
    (hbitmap : ∀ f, s'.memoryBitmap f =
      s.memoryBitmap f - if frameOf e = f then 1 else 0) :
    Unmapped root rest addr e s s' :=
  ⟨hset.usable, hset.zero, fun _ ha => hset.pte haddr ha, hset.elsewhere,
    fun f _ => hbitmap f, fun f => Nat.le_of_eq (hset.tables f), hset.data⟩

theorem Unmapped.shrinks {root addr : Nat} {e : Word}
    (h : Unmapped root rest addr e s s')
    (hsh : Shrinks ((4, root) :: rest) s' s'') :
    Unmapped root rest addr e s s'' := by
  have hzero : ∀ f, forestTables pageFormat s.mem ((4, root) :: rest) f = 0 →
      forestTables pageFormat s'.mem ((4, root) :: rest) f = 0 := by
    intro f hf
    have := h.tables f
    omega
  refine ⟨hsh.usable.trans h.usable, hsh.zero.trans h.zero, ?_, ?_, ?_, ?_, ?_⟩
  · intro a ha
    rw [← h.pte a ha]
    exact hsh.leaf (4, root) (by simp) _ (vpath_inRange ha)
  · intro x hx q hq
    exact (hsh.leaf x (by simp [hx]) q hq).trans (h.elsewhere x hx q hq)
  · intro f hf
    rw [hsh.bitmap f (hzero f hf), h.bitmap f hf]
  · intro f
    exact (hsh.tables f).trans (h.tables f)
  · intro f hf
    rw [hsh.data f (hzero f hf), h.data f hf]

theorem Counted.mapped {root addr : Nat} {e : Word}
    (hc : Counted s held trees) (hroot : (4, root) ∈ trees)
    (haddr : addr < lowerHalf) (h : GlitchedOS.pte s root addr = some e) :
    frameOf e < s.usablePageCount ∧ s.memoryBitmap (frameOf e) ≠ 0 ∧
      0 < forestLeaves pageFormat s.mem trees (frameOf e) := by
  have hpos : 0 < forestLeaves pageFormat s.mem trees (frameOf e) :=
    Nat.lt_of_lt_of_le
      (leafCount_pos_of_leafWord pageFormat (vpath_inRange haddr) h)
      (leafCount_le_forestLeaves pageFormat s.mem hroot _)
  have hlt := hc.leaf_lt _ hpos
  refine ⟨hlt, ?_, hpos⟩
  rw [hc.exact _ hlt]
  omega

/-- The states `free_page` passes on a page that is mapped: the page unmapped, then the
clean-ups of the PT and of the PD; that of the PDPT is the last step. -/
structure FreeSteps (root page : Nat) (rest : List (Nat × Nat)) (held : Nat → Nat)
    (pdpt pd pt : Nat) (s s₁ s₂ s₃ : PhysMem) : Prop where
  walk : Walked s.mem root page pdpt pd pt
  pres : present (s.mem pt (vpath page 1)) = true
  unmap : s₁ = (s.writeWord pt (vpath page 1) 0#64).decCount
    (frameOf (s.mem pt (vpath page 1)))
  freePt : s₂ = releaseIfEmpty s₁ pt pd (vpath page 2)
  freePd : s₃ = releaseIfEmpty s₂ pd pdpt (vpath page 3)
  freePdpt : (freePage s root page).2 = releaseIfEmpty s₃ pdpt root (vpath page 4)
  counted₁ : Counted s₁ held ((4, root) :: rest)
  counted₂ : Counted s₂ held ((4, root) :: rest)
  counted₃ : Counted s₃ held ((4, root) :: rest)
  walk₁ : Walked s₁.mem root page pdpt pd pt
  pd₂ : ∃ l, descend pageFormat s₂.mem (vpath page) 2 2 root = some (l, pd)
  pdpt₂ : ∃ l, descend pageFormat s₂.mem (vpath page) 3 1 root = some (l, pdpt)
  pdpt₃ : ∃ l, descend pageFormat s₃.mem (vpath page) 3 1 root = some (l, pdpt)

theorem FreeSteps.mem₁ {root page pdpt pd pt : Nat} {s₁ s₂ s₃ : PhysMem}
    (h : FreeSteps root page rest held pdpt pd pt s s₁ s₂ s₃) :
    s₁.mem = write s.mem pt (vpath page 1) 0#64 := by
  rw [h.unmap, PhysMem.decCount_mem]
  rfl

theorem freePage_steps {root page : Nat} {e : Word}
    (hc : Counted s held ((4, root) :: rest)) (hpage : page ≠ 0)
    (haddr : page < lowerHalf) (h : pte s root page = some e) :
    ∃ pdpt pd pt s₁ s₂ s₃, FreeSteps root page rest held pdpt pd pt s s₁ s₂ s₃ ∧
      s.mem pt (vpath page 1) = e := by
  have hp := vpath_inRange haddr
  obtain ⟨hlt, hused, -⟩ := hc.mapped (by simp) haddr h
  obtain ⟨pdpt, pd, pt, hw, hpres, hword⟩ := walked_of_pte h
  set s₁ := (s.writeWord pt (vpath page 1) 0#64).decCount
    (frameOf (s.mem pt (vpath page 1))) with hs₁
  have hmem₁ : s₁.mem = write s.mem pt (vpath page 1) 0#64 := by
    rw [hs₁, PhysMem.decCount_mem]
    rfl
  have husable₁ : s₁.usablePageCount = s.usablePageCount := by
    rw [hs₁, PhysMem.decCount_usablePageCount]
    rfl
  obtain ⟨l1, hd1⟩ := hw.pt
  have hc₁ : Counted s₁ held ((4, root) :: rest) := by
    refine hc.setLeaf (d := 3) hp hd1 0#64 hmem₁ husable₁ ?_ nofun
    intro f _
    rw [hs₁, PhysMem.decCount_memoryBitmap, PhysMem.writeWord_memoryBitmap, if_pos hpres,
      present_zero, if_neg Bool.false_ne_true, hword]
    by_cases hf : frameOf e = f
    · subst hf
      rw [if_pos rfl]
      omega
    · rw [if_neg hf]
      omega
  have hw₁ : Walked s₁.mem root page pdpt pd pt := by
    rw [hmem₁]
    exact hw.writeLeaf hc haddr _ _
  obtain ⟨l3, hd3⟩ := hw₁.pdpt
  obtain ⟨l2, hd2⟩ := hw₁.pd
  obtain ⟨l1, hd1⟩ := hw₁.pt
  obtain ⟨hc₂, -, habove₂⟩ := releaseIfEmpty_spec (k := 0) (d := 2) (by decide) hc₁ hp hd2 hd1
  have hd3₂ := (habove₂ 1 1 rfl).trans hd3
  have hd2₂ := (habove₂ 0 2 rfl).trans hd2
  obtain ⟨hc₃, -, habove₃⟩ := releaseIfEmpty_spec (k := 1) (d := 1) (by decide) hc₂ hp hd3₂
    hd2₂
  exact ⟨pdpt, pd, pt, s₁, _, _, ⟨hw, hpres, hs₁, rfl, rfl, freePage_mapped hpage hw hpres,
    hc₁, hc₂, hc₃, hw₁, ⟨_, hd2₂⟩, ⟨_, hd3₂⟩, _, (habove₃ 0 1 rfl).trans hd3₂⟩, hword⟩

theorem FreeSteps.shrinks {root page pdpt pd pt : Nat} {s₁ s₂ s₃ : PhysMem}
    (h : FreeSteps root page rest held pdpt pd pt s s₁ s₂ s₃) (haddr : page < lowerHalf) :
    Counted (freePage s root page).2 held ((4, root) :: rest) ∧
      Shrinks ((4, root) :: rest) s₁ s₂ ∧ Shrinks ((4, root) :: rest) s₂ s₃ ∧
      Shrinks ((4, root) :: rest) s₃ (freePage s root page).2 := by
  have hp := vpath_inRange haddr
  obtain ⟨l1, hd1⟩ := h.walk₁.pt
  obtain ⟨l2, hd2⟩ := h.walk₁.pd
  obtain ⟨l2', hd2₂⟩ := h.pd₂
  obtain ⟨l3, hd3₂⟩ := h.pdpt₂
  obtain ⟨l3', hd3₃⟩ := h.pdpt₃
  obtain ⟨-, hsh₂, -⟩ := releaseIfEmpty_spec (k := 0) (d := 2) (by decide) h.counted₁ hp hd2 hd1
  obtain ⟨-, hsh₃, -⟩ := releaseIfEmpty_spec (k := 1) (d := 1) (by decide) h.counted₂ hp hd3₂
    hd2₂
  obtain ⟨hc₄, hsh₄, -⟩ := releaseIfEmpty_spec (k := 2) (d := 0) (l := []) (by decide)
    h.counted₃ hp rfl hd3₃
  rw [h.freePdpt]
  refine ⟨hc₄, ?_, ?_, hsh₄⟩
  · rw [h.freePt]
    exact hsh₂
  · rw [h.freePd]
    exact hsh₃

theorem freePage_spec {root page : Nat} {e : Word}
    (hc : Counted s held ((4, root) :: rest)) (hpage : page ≠ 0)
    (haddr : page < lowerHalf) (h : pte s root page = some e) :
    Counted (freePage s root page).2 held ((4, root) :: rest) ∧
      Unmapped root rest page e s (freePage s root page).2 := by
  obtain ⟨pdpt, pd, pt, s₁, s₂, s₃, hsteps, hword⟩ := freePage_steps hc hpage haddr h
  obtain ⟨hc₄, hsh₂, hsh₃, hsh₄⟩ := hsteps.shrinks haddr
  obtain ⟨l1, hd1⟩ := hsteps.walk.pt
  have hset : LeafSet root rest (vpath page) none s s₁ := by
    refine hc.leafSet (vpath_inRange haddr) hd1 0#64 hsteps.mem₁ ?_ ?_
    · rw [hsteps.unmap, PhysMem.decCount_usablePageCount]
      rfl
    · rw [hsteps.unmap, PhysMem.decCount_zeroPage]
      rfl
  have hbitmap : ∀ f, s₁.memoryBitmap f =
      s.memoryBitmap f - if frameOf e = f then 1 else 0 := by
    intro f
    rw [hsteps.unmap, hword, PhysMem.decCount_memoryBitmap]
    rfl
  exact ⟨hc₄, (hset.unmapped haddr hbitmap).shrinks ((hsh₂.trans hsh₃).trans hsh₄)⟩

/-- `free_page` keeps the counts exact, whatever it finds. -/
theorem freePage_counted {root page : Nat}
    (hc : Counted s held ((4, root) :: rest)) (haddr : page < lowerHalf) :
    Counted (freePage s root page).2 held ((4, root) :: rest) := by
  by_cases hpage : page = 0
  · rw [freePage, if_pos hpage]
    exact hc
  · cases h : pte s root page with
    | none =>
        rw [freePage_unmapped h]
        exact hc
    | some e => exact (freePage_spec hc hpage haddr h).1

/-! ### Frames of one page -/

theorem Counted.unique_page {root a a' : Nat} {e e' : Word}
    (hc : Counted s held ((4, root) :: rest)) (ha : a < lowerHalf) (hpte : pte s root a = some e)
    (hone : s.memoryBitmap (frameOf e) = 1) (ha' : a' < lowerHalf)
    (hpte' : pte s root a' = some e') (hframe : frameOf e' = frameOf e) :
    a' / pageSize = a / pageSize := by
  by_contra hdiff
  -- an address of the same page that `free_page` does not refuse
  obtain ⟨b, hb, hblt, hpage⟩ : ∃ b, b ≠ 0 ∧ b < lowerHalf ∧ b / pageSize = a / pageSize := by
    refine ⟨a / pageSize * pageSize + 1, by omega, ?_, ?_⟩
    · simp only [pageSize, lowerHalf] at ha ⊢
      omega
    · simp only [pageSize]
      omega
  have hpteb : pte s root b = some e := (leafWord_path_congr pageFormat fun j hlo hhi =>
    (vpath_samePage ha hblt).mpr hpage j hlo hhi).trans hpte
  obtain ⟨hc', hun⟩ := freePage_spec hc hb hblt hpteb
  have hkeep : pte (freePage s root b).2 root a' = some e' := by
    rw [hun.pte a' ha', if_neg fun h => hdiff (h.trans hpage), hpte']
  obtain ⟨hlt, -, hpos⟩ := hc.mapped List.mem_cons_self ha hpte
  have hexact := hc.exact _ hlt
  have hgone := hun.bitmap (frameOf e) (by omega)
  rw [if_pos rfl, hone] at hgone
  obtain ⟨-, hused, -⟩ := hc'.mapped List.mem_cons_self ha' hkeep
  rw [hframe] at hused
  exact hused hgone

theorem Counted.not_table_of_alone {root addr : Nat} {e : Word}
    (hc : Counted s held ((4, root) :: rest)) (haddr : addr < lowerHalf)
    (hpte : pte s root addr = some e)
    (hone : s.memoryBitmap (frameOf e) = 1) :
    forestTables pageFormat s.mem ((4, root) :: rest) (frameOf e) = 0 := by
  obtain ⟨hlt, -, hpos⟩ := hc.mapped List.mem_cons_self haddr hpte
  have hexact := hc.exact _ hlt
  omega

/-! ### `free_region` -/

theorem releaseIfEmpty_globals (s : PhysMem) (table parent i : Nat) :
    (releaseIfEmpty s table parent i).usablePageCount = s.usablePageCount ∧
      (releaseIfEmpty s table parent i).zeroPage = s.zeroPage := by
  rw [releaseIfEmpty]
  split <;> simp

theorem freePage_globals (s : PhysMem) (root page : Nat) :
    (freePage s root page).2.usablePageCount = s.usablePageCount ∧
      (freePage s root page).2.zeroPage = s.zeroPage := by
  by_cases hpage : page = 0
  · rw [freePage, if_pos hpage]
    exact ⟨rfl, rfl⟩
  · cases h : pte s root page with
    | none =>
        rw [freePage_unmapped h]
        exact ⟨rfl, rfl⟩
    | some e =>
        obtain ⟨pdpt, pd, pt, hw, hpres, -⟩ := walked_of_pte h
        rw [freePage_mapped hpage hw hpres]
        simp [releaseIfEmpty_globals]

theorem freeRegion_globals (s : PhysMem) (root vaddr size : Nat) :
    (freeRegion s root vaddr size).usablePageCount = s.usablePageCount ∧
      (freeRegion s root vaddr size).zeroPage = s.zeroPage := by
  rw [freeRegion]
  refine loopPure_induct (P := fun _ (s' : PhysMem) =>
    s'.usablePageCount = s.usablePageCount ∧ s'.zeroPage = s.zeroPage) ⟨rfl, rfl⟩ ?_
  intro i _ s' ih
  obtain ⟨husable, hzero⟩ := freePage_globals s' root (vaddr + i * pageSize)
  exact ⟨husable.trans ih.1, hzero.trans ih.2⟩

theorem freeRegion_counted {root vaddr size : Nat}
    (hc : Counted s held ((4, root) :: rest))
    (hfit : vaddr + size ≤ lowerHalf) :
    Counted (freeRegion s root vaddr size) held ((4, root) :: rest) := by
  rw [freeRegion]
  refine loopPure_induct (P := fun _ s => Counted s held ((4, root) :: rest)) hc ?_
  intro i hi s hs
  exact freePage_counted hs (round_lt_lowerHalf hfit hi)

/-! ### `free_page_tables` -/

/-- The references behind the first `n` words of a table. -/
def refsBehind (m : Nat → Nat → Word) (level n t f : Nat) : Nat :=
  ∑ i ∈ Finset.range n, entryWeight pageFormat m
    (fun x => if x = f then 1 else 0) (fun x => if x = f then 1 else 0) level
    (m t i)

/-- The references to `f` in the tree of height `h` at `t`, its root included. -/
def refsIn (m : Nat → Nat → Word) (h t f : Nat) : Nat :=
  weight pageFormat m (fun x => if x = f then 1 else 0)
    (fun x => if x = f then 1 else 0) h t

theorem refsBehind_succ_present {m : Nat → Nat → Word} {level n t : Nat}
    (hpres : present (m t n) = true) (f : Nat) :
    refsBehind m level (n + 1) t f =
      refsBehind m level n t f + refsIn m level (frameOf (m t n)) f := by
  rw [refsBehind, Finset.sum_range_succ]
  exact congrArg _ (if_pos hpres)

theorem refsBehind_succ_absent {m : Nat → Nat → Word} {level n t : Nat}
    (habs : ¬ present (m t n) = true) (f : Nat) :
    refsBehind m level (n + 1) t f = refsBehind m level n t f := by
  rw [refsBehind, Finset.sum_range_succ]
  exact congrArg _ (if_neg habs)

theorem refsIn_zero (m : Nat → Nat → Word) (t f : Nat) :
    refsIn m 0 t f = if t = f then 1 else 0 := rfl

theorem refsIn_succ (m : Nat → Nat → Word) (level t f : Nat) :
    refsIn m (level + 1) t f =
      refsBehind m level (pageFormat.width (level + 1)) t f +
        if t = f then 1 else 0 := by
  rw [refsIn, weight_succ, Nat.add_comm]
  rfl

theorem refsIn_eq (m : Nat → Nat → Word) (h t f : Nat) :
    refsIn m h t f =
      tableCount pageFormat m h t f + leafCount pageFormat m h t f := by
  rw [tableCount, leafCount, ← weight_add]
  simp only [Nat.zero_add, Nat.add_zero]
  rfl

/-- Two states that differ in `memory_bitmap` and the search hint only. -/
structure SameMemory (s s' : PhysMem) : Prop where
  mem : s'.mem = s.mem
  usable : s'.usablePageCount = s.usablePageCount
  zero : s'.zeroPage = s.zeroPage

theorem SameMemory.trans (h : SameMemory s s') (h' : SameMemory s' s'') :
    SameMemory s s'' :=
  ⟨h'.mem.trans h.mem, h'.usable.trans h.usable, h'.zero.trans h.zero⟩

theorem sameMemory_decCount (s : PhysMem) (f : Nat) :
    SameMemory s (s.decCount f) := by
  constructor <;> simp

/-- The nested loops drop each reference behind a table once. -/
theorem freeTable_spec : ∀ (level n t : Nat) (s : PhysMem), level ≤ 3 →
    SameMemory s (freeTable level n t s) ∧
      ∀ f, (freeTable level n t s).memoryBitmap f =
        s.memoryBitmap f - refsBehind s.mem level n t f
  | level, 0, t, s, _ => by
      have hnone : freeTable level 0 t s = s := by
        cases level <;> rfl
      rw [hnone]
      exact ⟨⟨rfl, rfl, rfl⟩, fun f => by simp [refsBehind]⟩
  | 0, n + 1, t, s, hlevel => by
      obtain ⟨hsame, hbitmap⟩ := freeTable_spec 0 n t s hlevel
      have hstep : freeTable 0 (n + 1) t s =
          if present ((freeTable 0 n t s).mem t n) then
            (freeTable 0 n t s).decCount (frameOf ((freeTable 0 n t s).mem t n))
          else freeTable 0 n t s := rfl
      rw [hstep, hsame.mem]
      split
      · rename_i hpres
        refine ⟨hsame.trans (sameMemory_decCount _ _), fun f => ?_⟩
        rw [PhysMem.decCount_memoryBitmap, hbitmap, Nat.sub_sub,
          refsBehind_succ_present hpres, refsIn_zero]
      · rename_i habs
        refine ⟨hsame, fun f => ?_⟩
        rw [hbitmap, refsBehind_succ_absent habs]
  | level + 1, n + 1, t, s, hlevel => by
      obtain ⟨hsame, hbitmap⟩ := freeTable_spec (level + 1) n t s hlevel
      have hstep : freeTable (level + 1) (n + 1) t s =
          if present ((freeTable (level + 1) n t s).mem t n) then
            (freeTable level 512
              (frameOf ((freeTable (level + 1) n t s).mem t n))
              (freeTable (level + 1) n t s)).decCount
              (frameOf ((freeTable (level + 1) n t s).mem t n))
          else freeTable (level + 1) n t s := rfl
      rw [hstep, hsame.mem]
      split
      · rename_i hpres
        obtain ⟨hsub, hsubBitmap⟩ := freeTable_spec level 512
          (frameOf (s.mem t n)) (freeTable (level + 1) n t s) (by omega)
        refine ⟨(hsame.trans hsub).trans (sameMemory_decCount _ _),
          fun f => ?_⟩
        have hwidth : pageFormat.width (level + 1) = 512 := if_neg (by omega)
        rw [PhysMem.decCount_memoryBitmap, hsubBitmap, hbitmap, hsame.mem,
          refsBehind_succ_present hpres, refsIn_succ, hwidth, Nat.sub_sub,
          Nat.sub_sub]
      · rename_i habs
        refine ⟨hsame, fun f => ?_⟩
        rw [hbitmap, refsBehind_succ_absent habs]

/-- `free_page_tables` drops every reference of the address space. -/
theorem freePageTables_spec {root : Nat}
    (hc : Counted s held ((4, root) :: rest)) :
    Counted (freePageTables s root) held rest ∧
      SameMemory s (freePageTables s root) ∧
      ∀ f, (freePageTables s root).memoryBitmap f = s.memoryBitmap f -
        (tableCount pageFormat s.mem 4 root f +
          leafCount pageFormat s.mem 4 root f) := by
  obtain ⟨hsame, hbitmap⟩ := freeTable_spec 3 256 root s (Nat.le_refl _)
  have hfinal : SameMemory s (freePageTables s root) :=
    hsame.trans (sameMemory_decCount _ _)
  have hdrop : ∀ f, (freePageTables s root).memoryBitmap f =
      s.memoryBitmap f - (tableCount pageFormat s.mem 4 root f +
        leafCount pageFormat s.mem 4 root f) := by
    intro f
    rw [freePageTables, PhysMem.decCount_memoryBitmap, hbitmap, Nat.sub_sub,
      ← refsIn_eq, refsIn_succ]
    rfl
  refine ⟨⟨?_, ?_, ?_, ?_, ?_⟩, hfinal, hdrop⟩
  · intro f
    have := hc.once f
    rw [forestTables_cons] at this
    rw [hfinal.mem]
    omega
  · intro f hf
    have := hc.exact f (hfinal.usable ▸ hf)
    rw [forestTables_cons, forestLeaves_cons] at this
    rw [hdrop, hfinal.mem]
    omega
  · rw [hfinal.usable]
    exact hc.held_lt
  · intro f hf
    rw [hfinal.mem] at hf
    rw [hfinal.usable]
    apply hc.leaf_lt
    rw [forestLeaves_cons]
    omega
  · intro f hf
    rw [hfinal.mem] at hf
    rw [hfinal.usable]
    have hpos : 0 < forestTables pageFormat s.mem ((4, root) :: rest) f := by
      rw [forestTables_cons]
      omega
    rcases hc.table_lt f hpos with hlt | hmem
    · exact Or.inl hlt
    · rcases List.mem_cons.mp hmem with rfl | hmem
      · have hself : 0 < tableCount pageFormat s.mem 4 f f :=
          tableCount_self_pos pageFormat s.mem 3 f
        have := hc.once f
        rw [forestTables_cons] at this
        omega
      · exact Or.inr hmem

end GlitchedOS
