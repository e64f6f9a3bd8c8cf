/-
Walks through the page tables, and the two kinds of change an operation makes:
`Grows`, when tables appear that no translation uses yet, and `LeafSet`, when
the word of one page changes.
-/
import GlitchedOS.Paging.Counts

namespace GlitchedOS

open Radix

variable {s s' s'' : PhysMem} {held : Nat → Nat} {trees rest : List (Nat × Nat)}

/-- What building tables leaves alone: translations, the counts of frames in
use, and the contents of those that are not tables. -/
structure Grows (trees : List (Nat × Nat)) (s s' : PhysMem) : Prop where
  usable : s'.usablePageCount = s.usablePageCount
  zero : s'.zeroPage = s.zeroPage
  leaf : ∀ x ∈ trees, ∀ q, InRange q →
    leafWord pageFormat s'.mem q x.1 x.2 = leafWord pageFormat s.mem q x.1 x.2
  bitmap : ∀ f, s.memoryBitmap f ≠ 0 → s'.memoryBitmap f = s.memoryBitmap f
  tables : ∀ f < s.usablePageCount, s.memoryBitmap f ≠ 0 →
    forestTables pageFormat s'.mem trees f =
      forestTables pageFormat s.mem trees f
  data : ∀ f < s.usablePageCount, s.memoryBitmap f ≠ 0 →
    forestTables pageFormat s.mem trees f = 0 → s'.mem f = s.mem f

theorem Grows.refl (trees : List (Nat × Nat)) (s : PhysMem) :
    Grows trees s s :=
  ⟨rfl, rfl, fun _ _ _ _ => rfl, fun _ _ => rfl, fun _ _ _ => rfl,
    fun _ _ _ _ => rfl⟩

theorem Grows.trans (h : Grows trees s s') (h' : Grows trees s' s'') :
    Grows trees s s'' := by
  have hused : ∀ f, s.memoryBitmap f ≠ 0 → s'.memoryBitmap f ≠ 0 := by
    intro f hf
    rw [h.bitmap f hf]
    exact hf
  refine ⟨h'.usable.trans h.usable, h'.zero.trans h.zero, ?_, ?_, ?_, ?_⟩
  · intro x hx q hq
    exact (h'.leaf x hx q hq).trans (h.leaf x hx q hq)
  · intro f hf
    exact (h'.bitmap f (hused f hf)).trans (h.bitmap f hf)
  · intro f hlt hf
    rw [h'.tables f (h.usable ▸ hlt) (hused f hf), h.tables f hlt hf]
  · intro f hlt hf htab
    rw [h'.data f (h.usable ▸ hlt) (hused f hf)
      ((h.tables f hlt hf).trans htab), h.data f hlt hf htab]

theorem Counted.grows_allocatePhysicalPage (hc : Counted s held trees) {f : Nat}
    (h : GlitchedOS.allocatePhysicalPage s = .ok (f, s')) :
    Grows trees s s' ∧ (∀ i, s'.mem f i = 0#64) ∧
      ∀ g, g ≠ f → s'.mem g = s.mem g := by
  obtain ⟨hlt, hzero, rfl⟩ := allocatePhysicalPage_ok h
  obtain ⟨-, htables, -⟩ := hc.fresh hlt hzero
  set s' := (PhysMem.incCount { s with firstUsable := f + 1 } f).zeroFrame f
  have hother : ∀ g, g ≠ f → s'.mem g = s.mem g := by
    intro g hg
    simp [s', PhysMem.zeroFrame, hg]
  have hagree : ∀ g, 0 < forestTables pageFormat s.mem trees g →
      ∀ i, s'.mem g i = s.mem g i := by
    intro g hg i
    rw [hother g]
    rintro rfl
    omega
  have hused : ∀ g, s.memoryBitmap g ≠ 0 → g ≠ f := by
    rintro g hg rfl
    exact hg hzero
  refine ⟨⟨rfl, rfl, ?_, ?_, ?_, ?_⟩, ?_, hother⟩
  · intro x hx q hq
    apply leafWord_congr pageFormat hq
    intro g hg
    exact hagree g (Nat.lt_of_lt_of_le hg
      (tableCount_le_forestTables pageFormat s.mem hx g))
  · intro g hg
    have := PhysMem.incCount_memoryBitmap { s with firstUsable := f + 1 }
      (f := f) (by simp [hzero]) g
    rw [if_neg (Ne.symm (hused g hg))] at this
    exact this
  · intro g _ _
    exact forestWeight_congr pageFormat _ _ hagree
  · intro g _ hg _
    exact hother g (hused g hg)
  · intro i
    simp [s', PhysMem.zeroFrame]

theorem present_zero : present 0#64 = false := by decide

theorem present_join {f : Nat} (hf : f < 2 ^ 40) (flags : Word) :
    present (frameAddress f ||| flags) = flags.getLsbD 0 := by
  rw [present, hasFlag_present, getLsbD_join hf flags (by decide)]

theorem link_word {f : Nat} (hf : f < 2 ^ 40) :
    present ((frameAddress f &&& pageMask) ||| higherLevelFlags) = true ∧
      frameOf ((frameAddress f &&& pageMask) ||| higherLevelFlags) = f := by
  rw [frameAddress_pageMask hf, present_join hf, frameOf_join hf (by decide)]
  exact ⟨by decide, rfl⟩

/-- Two paths with the same index at each of the four levels. -/
def SamePage (p q : Nat → Nat) : Prop := ∀ j, 0 < j → j ≤ 4 → q j = p j

/-- Where the index of the top level tells addresses apart, two of them take the same path
when they lie in the same page. -/
theorem samePage_iff {a b : Nat} (htop : a / 2 ^ 39 % 512 = b / 2 ^ 39 % 512 →
    a / 2 ^ 39 = b / 2 ^ 39) :
    SamePage (vpath a) (vpath b) ↔ b / pageSize = a / pageSize := by
  constructor
  · intro h
    have h1 := h 1 (by decide) (by decide)
    have h2 := h 2 (by decide) (by decide)
    have h3 := h 3 (by decide) (by decide)
    have h4 := h 4 (by decide) (by decide)
    simp only [vpath, getPageEntry] at h1 h2 h3 h4
    simp only [pageSize]
    omega
  · intro h j hlo hhi
    simp only [pageSize] at h
    obtain rfl | rfl | rfl | rfl : j = 1 ∨ j = 2 ∨ j = 3 ∨ j = 4 := by omega
    all_goals
      simp only [vpath, getPageEntry]
      omega

theorem vpath_samePage {a b : Nat} (ha : a < lowerHalf) (hb : b < lowerHalf) :
    SamePage (vpath a) (vpath b) ↔ b / pageSize = a / pageSize := by
  simp only [lowerHalf] at ha hb
  exact samePage_iff (by omega)

theorem round_lt_lowerHalf {vaddr size n : Nat}
    (hfit : vaddr + size ≤ lowerHalf)
    (hn : n < pageRounds vaddr (pageAlign (vaddr + size))) :
    vaddr + n * pageSize < lowerHalf := by
  simp only [pageRounds, pageAlign, pageSize, lowerHalf] at *
  omega

/-- The word that maps the page of `addr` in the address space `root`. -/
def pte (s : PhysMem) (root addr : Nat) : Option Word :=
  leafWord pageFormat s.mem (vpath addr) 4 root

/-- The tables a walk to `addr` passes. -/
structure Walked (m : Nat → Nat → Word) (root addr pdpt pd pt : Nat) : Prop where
  pdpt : ∃ l, descend pageFormat m (vpath addr) 3 1 root = some (l, pdpt)
  pd : ∃ l, descend pageFormat m (vpath addr) 2 2 root = some (l, pd)
  pt : ∃ l, descend pageFormat m (vpath addr) 1 3 root = some (l, pt)

theorem Walked.sameShape {m m' : Nat → Nat → Word} {root addr pdpt pd pt : Nat}
    (hw : Walked m root addr pdpt pd pt) (hshape : SameShape pageFormat m m') :
    Walked m' root addr pdpt pd pt := by
  obtain ⟨⟨l3, h3⟩, ⟨l2, h2⟩, l1, h1⟩ := hw
  exact ⟨descend_sameShape pageFormat hshape h3,
    descend_sameShape pageFormat hshape h2,
    descend_sameShape pageFormat hshape h1⟩

/-- The links a walk passes are present and lead to the next table. -/
theorem Walked.links {m : Nat → Nat → Word} {root addr pdpt pd pt : Nat}
    (hw : Walked m root addr pdpt pd pt) :
    (present (m root (vpath addr 4)) = true ∧
        frameOf (m root (vpath addr 4)) = pdpt) ∧
      (present (m pdpt (vpath addr 3)) = true ∧
        frameOf (m pdpt (vpath addr 3)) = pd) ∧
      present (m pd (vpath addr 2)) = true ∧
        frameOf (m pd (vpath addr 2)) = pt := by
  obtain ⟨⟨l3, h3⟩, ⟨l2, h2⟩, l1, h1⟩ := hw
  obtain ⟨_, _, hroot, hpres4, rfl⟩ := descend_parent pageFormat h3
  obtain ⟨-, rfl⟩ := Prod.mk.inj (Option.some.inj hroot)
  obtain ⟨_, _, hpdpt, hpres3, rfl⟩ := descend_parent pageFormat h2
  rw [h3] at hpdpt
  obtain ⟨-, rfl⟩ := Prod.mk.inj (Option.some.inj hpdpt)
  obtain ⟨_, _, hpd, hpres2, rfl⟩ := descend_parent pageFormat h1
  rw [h2] at hpd
  obtain ⟨-, rfl⟩ := Prod.mk.inj (Option.some.inj hpd)
  exact ⟨⟨hpres4, rfl⟩, ⟨hpres3, rfl⟩, hpres2, rfl⟩

theorem Walked.leafWord {m : Nat → Nat → Word} {root addr pdpt pd pt : Nat}
    (hw : Walked m root addr pdpt pd pt) :
    Radix.leafWord pageFormat m (vpath addr) 4 root =
      if present (m pt (vpath addr 1)) then some (m pt (vpath addr 1))
      else none := by
  obtain ⟨l1, h1⟩ := hw.pt
  exact (leafWord_of_descend pageFormat (k := 0) (d := 3) h1).trans
    (leafWord_one pageFormat m (vpath addr) pt)

theorem walked_of_pte {root addr : Nat} {e : Word}
    (h : pte s root addr = some e) :
    ∃ pdpt pd pt, Walked s.mem root addr pdpt pd pt ∧
      present (s.mem pt (vpath addr 1)) = true ∧
      s.mem pt (vpath addr 1) = e := by
  obtain ⟨es, htrail, -⟩ := Option.bind_eq_some_iff.mp h
  obtain ⟨l1, pt, _, h1, -, -⟩ := descend_of_trail pageFormat (k := 1) (d := 3)
    htrail
  obtain ⟨l2, pd, h2, -, -⟩ := descend_parent pageFormat h1
  obtain ⟨l3, pdpt, h3, -, -⟩ := descend_parent pageFormat h2
  have hw : Walked s.mem root addr pdpt pd pt := ⟨⟨l3, h3⟩, ⟨l2, h2⟩, l1, h1⟩
  refine ⟨pdpt, pd, pt, hw, ?_⟩
  rw [pte, hw.leafWord] at h
  split at h
  · rename_i hpres
    exact ⟨hpres, Option.some.inj h⟩
  · cases h

theorem pte_eq (s : PhysMem) (root addr : Nat) :
    pte s root addr =
      let entry := getPageEntry addr
      if present (s.mem root entry.pml4Index) then
        let pdpt := frameOf (s.mem root entry.pml4Index)
        if present (s.mem pdpt entry.pdptIndex) then
          let pd := frameOf (s.mem pdpt entry.pdptIndex)
          if present (s.mem pd entry.pdIndex) then
            let pt := frameOf (s.mem pd entry.pdIndex)
            if present (s.mem pt entry.ptIndex) then
              some (s.mem pt entry.ptIndex)
            else none
          else none
        else none
      else none := by
  rw [pte, leafWord_succ, leafWord_succ, leafWord_succ, leafWord_one]
  rfl

theorem Grows.pte {root addr : Nat} (hgrow : Grows ((4, root) :: rest) s s')
    (haddr : addr < lowerHalf) : GlitchedOS.pte s' root addr = GlitchedOS.pte s root addr :=
  hgrow.leaf (4, root) List.mem_cons_self _ (vpath_inRange haddr)

theorem Walked.writeLeaf {root addr pdpt pd pt : Nat}
    (hw : Walked s.mem root addr pdpt pd pt)
    (hc : Counted s held ((4, root) :: rest)) (haddr : addr < lowerHalf)
    (i : Nat) (e : Word) :
    Walked (write s.mem pt i e) root addr pdpt pd pt := by
  have hp := vpath_inRange haddr
  have hex := hc.exclusive (k := 0) (d := 3)
  obtain ⟨⟨l3, hd3⟩, ⟨l2, hd2⟩, l1, hd1⟩ := hw
  refine ⟨⟨l3, ?_⟩, ⟨l2, ?_⟩, l1, ?_⟩
  · exact (descend_write_above pageFormat hp (j := 2) (d := 1) i e hex
      hd1).trans hd3
  · exact (descend_write_above pageFormat hp (j := 1) (d := 2) i e hex
      hd1).trans hd2
  · exact descend_write pageFormat hp i e hex hd1

theorem not_samePage {p q : Nat → Nat} (h : ¬ SamePage p q) :
    ∃ j, 0 < j ∧ j ≤ 4 ∧ q j ≠ p j := by
  simpa [SamePage] using h

/-- What writing the leaf word of the path `p` does: this page changes and
nothing else that an address space can see. -/
structure LeafSet (root : Nat) (rest : List (Nat × Nat)) (p : Nat → Nat)
    (e : Option Word) (s s' : PhysMem) : Prop where
  usable : s'.usablePageCount = s.usablePageCount
  zero : s'.zeroPage = s.zeroPage
  self : ∀ q, SamePage p q → leafWord pageFormat s'.mem q 4 root = e
  other : ∀ q, InRange q → ¬ SamePage p q →
    leafWord pageFormat s'.mem q 4 root = leafWord pageFormat s.mem q 4 root
  elsewhere : ∀ x ∈ rest, ∀ q, InRange q →
    leafWord pageFormat s'.mem q x.1 x.2 = leafWord pageFormat s.mem q x.1 x.2
  tables : ∀ f, forestTables pageFormat s'.mem ((4, root) :: rest) f =
    forestTables pageFormat s.mem ((4, root) :: rest) f
  data : ∀ f, forestTables pageFormat s.mem ((4, root) :: rest) f = 0 →
    s'.mem f = s.mem f

theorem Counted.leafSet {root pt : Nat} {l : List Word} {p : Nat → Nat}
    (hc : Counted s held ((4, root) :: rest)) (hp : InRange p)
    (hd : descend pageFormat s.mem p 1 3 root = some (l, pt)) (e : Word)
    (hmem : s'.mem = write s.mem pt (p 1) e)
    (husable : s'.usablePageCount = s.usablePageCount)
    (hzero : s'.zeroPage = s.zeroPage) :
    LeafSet root rest p (if present e then some e else none) s s' := by
  obtain ⟨hself, hother, hrest⟩ := leafWord_setLeaf pageFormat (d := 3) hp e
    hc.tables_le_one hd
  refine ⟨husable, hzero, ?_, ?_, ?_, ?_, ?_⟩
  · intro q hq
    rw [hmem]
    exact hself q hq
  · intro q hq hne
    rw [hmem]
    exact hother q hq (not_samePage hne)
  · intro x hx q hq
    rw [hmem]
    exact hrest x hx q hq
  · intro f
    rw [hmem]
    exact hc.forestTables_setLeaf (d := 3) hp hd e f
  · intro f hf
    have hne : f ≠ pt := by
      rintro rfl
      have hpos : 0 < tableCount pageFormat s.mem 4 root f :=
        Nat.lt_of_lt_of_le (tableCount_self_pos pageFormat s.mem 0 f)
          (tableCount_descend_le pageFormat hp hd f)
      rw [forestTables_cons] at hf
      omega
    funext i
    rw [hmem, write_frame_ne _ _ _ hne]

theorem LeafSet.pte {root addr : Nat} {e : Option Word}
    (hset : LeafSet root rest (vpath addr) e s s') (haddr : addr < lowerHalf)
    {a : Nat} (ha : a < lowerHalf) :
    GlitchedOS.pte s' root a =
      if a / pageSize = addr / pageSize then e
      else GlitchedOS.pte s root a := by
  split
  · rename_i heq
    exact hset.self _ ((vpath_samePage haddr ha).mpr heq)
  · rename_i hne
    exact hset.other _ (vpath_inRange ha)
      fun h => hne ((vpath_samePage haddr ha).mp h)

end GlitchedOS
