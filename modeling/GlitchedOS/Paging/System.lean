/-
The physical memory as a system: the boot page tables, the address spaces
cloned from them, and every operation the paging code offers on lower-half
addresses.  In each run whose steps leave room in the 32-bit counts,
`memory_bitmap` stays exact.
-/
import GlitchedOS.Lib.Run
import GlitchedOS.Paging.Progress
import GlitchedOS.Paging.Clone

namespace GlitchedOS

open Radix

/-- Physical memory with its owners: the root `base` of the boot page tables,
the frames pinned at boot, the roots handed out by `clone_page_tables` and the
frames handed to kernel owners. -/
structure MemSystem where
  phys : PhysMem
  base : Nat
  pinned : Nat → Bool
  spaces : List Nat
  owned : List Nat

namespace MemSystem

def roots (st : MemSystem) : List Nat := st.base :: st.spaces

/-- Frames counted once for their owner; the boot root is counted as a table. -/
def held (st : MemSystem) (f : Nat) : Nat :=
  (if st.pinned f && f != st.base then 1 else 0) + st.owned.count f

def trees (st : MemSystem) : List (Nat × Nat) := st.roots.map fun r => (4, r)

end MemSystem

/-- The operations of the paging code, each in the address space `root`. -/
inductive MemOp where
  | allocRegion (root vaddr size : Nat) (flags : Flags)
  | allocZeroRegion (root vaddr size : Nat) (flags : Flags)
  | allocMmioRegion (root vaddr paddr size : Nat) (flags : Flags)
  | freePage (root page : Nat)
  | freeRegion (root vaddr size : Nat)
  | clonePageTables (root : Nat)
  | cowHandler (root addr : Nat)
  | freePageTables (root : Nat)
  | allocatePhysicalPage

/-- The frames of an MMIO mapping are allocated ones. -/
def FramesAllocated (s : PhysMem) (paddr n : Nat) : Prop :=
  ∀ k < n, paddr + k < s.usablePageCount ∧ s.memoryBitmap (paddr + k) ≠ 0

/-- One operation that does not panic, on a live address space and on
lower-half addresses.  Only cloned address spaces are ever torn down. -/
inductive MemStep : MemSystem → MemOp → MemSystem → Prop
  | allocRegion {st : MemSystem} {root vaddr size : Nat} {flags : Flags}
      {s' : PhysMem} (hroot : root ∈ st.roots)
      (hfit : vaddr + size ≤ lowerHalf)
      (hok : GlitchedOS.allocRegion st.phys root vaddr size flags = .ok s') :
      MemStep st (.allocRegion root vaddr size flags) { st with phys := s' }
  | allocZeroRegion {st : MemSystem} {root vaddr size : Nat} {flags : Flags}
      {s' : PhysMem} (hroot : root ∈ st.roots)
      (hfit : vaddr + size ≤ lowerHalf)
      (hok : GlitchedOS.allocZeroRegion st.phys root vaddr size flags =
        .ok s') :
      MemStep st (.allocZeroRegion root vaddr size flags) { st with phys := s' }
  | allocMmioRegion {st : MemSystem} {root vaddr paddr size : Nat}
      {flags : Flags} {s' : PhysMem} (hroot : root ∈ st.roots)
      (hfit : vaddr + size ≤ lowerHalf)
      (hframes : FramesAllocated st.phys paddr
        (pageRounds vaddr (pageAlign (vaddr + size))))
      (hok : GlitchedOS.allocMmioRegion st.phys root vaddr paddr size flags =
        .ok s') :
      MemStep st (.allocMmioRegion root vaddr paddr size flags)
        { st with phys := s' }
  | freePage {st : MemSystem} {root page : Nat} (hroot : root ∈ st.roots)
      (hfit : page < lowerHalf) :
      MemStep st (.freePage root page)
        { st with phys := (GlitchedOS.freePage st.phys root page).2 }
  | freeRegion {st : MemSystem} {root vaddr size : Nat}
      (hroot : root ∈ st.roots) (hfit : vaddr + size ≤ lowerHalf) :
      MemStep st (.freeRegion root vaddr size)
        { st with phys := GlitchedOS.freeRegion st.phys root vaddr size }
  | clonePageTables {st : MemSystem} {root new : Nat} {s' : PhysMem}
      (hroot : root ∈ st.roots)
      (hok : GlitchedOS.clonePageTables st.phys root = .ok (new, s')) :
      MemStep st (.clonePageTables root)
        { st with phys := s', spaces := new :: st.spaces }
  | cowHandler {st : MemSystem} {root addr : Nat} {b : Bool} {s' : PhysMem}
      (hroot : root ∈ st.roots) (hfit : addr < lowerHalf)
      (hok : GlitchedOS.cowHandler st.phys root addr = .ok (b, s')) :
      MemStep st (.cowHandler root addr) { st with phys := s' }
  | freePageTables {st : MemSystem} {root : Nat} (hroot : root ∈ st.spaces) :
      MemStep st (.freePageTables root)
        { st with phys := GlitchedOS.freePageTables st.phys root
                  spaces := st.spaces.erase root }
  | allocatePhysicalPage {st : MemSystem} {f : Nat} {s' : PhysMem}
      (hok : GlitchedOS.allocatePhysicalPage st.phys = .ok (f, s')) :
      MemStep st .allocatePhysicalPage
        { st with phys := s', owned := f :: st.owned }

/-- The step takes no count past the largest `uint32_t`. -/
def Fits (st : MemSystem) : MemOp → Prop
  | .allocZeroRegion _ vaddr size _ =>
      st.phys.memoryBitmap st.phys.zeroPage +
        pageRounds vaddr (pageAlign (vaddr + size)) < 2 ^ 32
  | .allocMmioRegion _ vaddr paddr size _ =>
      ∀ k < pageRounds vaddr (pageAlign (vaddr + size)),
        st.phys.memoryBitmap (paddr + k) + 1 < 2 ^ 32
  | .clonePageTables root => Room st.phys 4 root
  | _ => True

/-- Every count is exact, and the zero page stays pinned. -/
structure MemSystem.Consistent (st : MemSystem) : Prop where
  counted : Counted st.phys st.held st.trees
  zero : st.held st.phys.zeroPage = 1

theorem MemSystem.mem_trees {st : MemSystem} {root : Nat}
    (hroot : root ∈ st.roots) : (4, root) ∈ st.trees :=
  List.mem_map.mpr ⟨root, hroot, rfl⟩

theorem MemSystem.trees_perm {st : MemSystem} {root : Nat}
    (hroot : root ∈ st.roots) :
    st.trees.Perm ((4, root) :: st.trees.erase (4, root)) :=
  List.perm_cons_erase (mem_trees hroot)

/-- A change of memory alone keeps a system consistent when it keeps the counts
and the zero page. -/
theorem MemSystem.Consistent.setPhys {st : MemSystem} {root : Nat}
    {s' : PhysMem} (h : st.Consistent) (hroot : root ∈ st.roots)
    (hc : Counted s' st.held ((4, root) :: st.trees.erase (4, root)))
    (hzero : s'.zeroPage = st.phys.zeroPage) :
    ({ st with phys := s' } : MemSystem).Consistent := by
  refine ⟨hc.perm (trees_perm hroot).symm, ?_⟩
  change st.held s'.zeroPage = 1
  rw [hzero]
  exact h.zero

/-- One step that fits keeps every count exact. -/
theorem MemStep.consistent {st st' : MemSystem} {op : MemOp}
    (hstep : MemStep st op st') (hfits : Fits st op) (h : st.Consistent) :
    st'.Consistent := by
  cases hstep with
  | allocRegion hroot hfit hok =>
      obtain ⟨hc, -, hzero, -⟩ := allocRegion_spec
        (h.counted.perm (MemSystem.trees_perm hroot)) hfit hok
      exact h.setPhys hroot hc hzero
  | allocZeroRegion hroot hfit hok =>
      obtain ⟨hc, hmapped⟩ := allocZeroRegion_spec
        (h.counted.perm (MemSystem.trees_perm hroot)) h.zero hfit hfits hok
      exact h.setPhys hroot hc hmapped.zero
  | allocMmioRegion hroot hfit hframes hok =>
      obtain ⟨hc, -, hzero⟩ := allocMmioRegion_spec
        (h.counted.perm (MemSystem.trees_perm hroot)) hfit
        (fun k hk => ⟨(hframes k hk).1, (hframes k hk).2, hfits k hk⟩) hok
      exact h.setPhys hroot hc hzero
  | freePage hroot hfit =>
      exact h.setPhys hroot (freePage_counted
        (h.counted.perm (MemSystem.trees_perm hroot)) hfit)
        (freePage_globals st.phys _ _).2
  | freeRegion hroot hfit =>
      exact h.setPhys hroot (freeRegion_counted
        (h.counted.perm (MemSystem.trees_perm hroot)) hfit)
        (freeRegion_globals st.phys _ _ _).2
  | @clonePageTables root new s' hroot hok =>
      have hcl := clonePageTables_spec
        (h.counted.perm (MemSystem.trees_perm hroot)) hfits hok
      refine ⟨?_, ?_⟩
      · refine hcl.counted.perm ?_
        refine ((MemSystem.trees_perm hroot).symm.cons (4, new)).trans ?_
        exact List.Perm.swap (4, st.base) (4, new) _
      · change st.held s'.zeroPage = 1
        rw [hcl.zero]
        exact h.zero
  | @cowHandler root addr b s' hroot hfit hok =>
      have hc := h.counted.perm (MemSystem.trees_perm hroot)
      cases hpte : pte st.phys root addr with
      | none =>
          rw [cowHandler_unmapped hpte] at hok
          obtain ⟨-, rfl⟩ := Prod.mk.inj (Except.ok.inj hok)
          exact h
      | some e =>
          cases hcow : hasFlag e flagsCow with
          | false =>
              rw [cowHandler_notCow hpte hcow] at hok
              obtain ⟨-, rfl⟩ := Prod.mk.inj (Except.ok.inj hok)
              exact h
          | true =>
              obtain ⟨-, hc', _, hres⟩ := cowHandler_spec hc hfit hpte hcow hok
              exact h.setPhys hroot hc' hres.zero
  | @freePageTables root hroot =>
      have hroot' : root ∈ st.roots := List.mem_cons_of_mem _ hroot
      obtain ⟨hc, hsame, -⟩ := freePageTables_spec
        (h.counted.perm (MemSystem.trees_perm hroot'))
      refine ⟨?_, ?_⟩
      · refine hc.perm ?_
        have hperm : st.trees.Perm ((4, root) ::
            (st.base :: st.spaces.erase root).map fun r => (4, r)) := by
          have := ((List.perm_cons_erase hroot).cons st.base).trans
            (List.Perm.swap root st.base _)
          exact this.map fun r => (4, r)
        exact ((MemSystem.trees_perm hroot').symm.trans hperm).cons_inv
      · change st.held (GlitchedOS.freePageTables st.phys root).zeroPage = 1
        rw [hsame.zero]
        exact h.zero
  | @allocatePhysicalPage f s' hok =>
      obtain ⟨hgrow, hnil, -⟩ := h.counted.grows_allocatePhysicalPage hok
      obtain ⟨hlt, hfree, -⟩ := allocatePhysicalPage_ok hok
      have hown := (h.counted.allocatePhysicalPage hok 0).own
        (hgrow.usable ▸ hlt) (fun i _ => by rw [hnil i]; exact present_zero)
      have hheld : (fun g => st.held g + if f = g then 1 else 0) =
          ({ st with phys := s', owned := f :: st.owned } : MemSystem).held := by
        funext g
        simp only [MemSystem.held, List.count_cons, beq_iff_eq, Nat.add_assoc]
      refine ⟨hheld ▸ hown, ?_⟩
      rw [← hheld]
      change st.held s'.zeroPage + _ = 1
      rw [hgrow.zero, h.zero, if_neg]
      rintro rfl
      obtain ⟨hnot, -⟩ := h.counted.fresh hlt hfree
      have := h.zero
      omega

/-! ### The counts of the source -/

/-- The table links behind a root that point to `f`, through all its levels. -/
def linkCount (m : Nat → Nat → Word) (root f : Nat) : Nat :=
  ∑ i ∈ Finset.range 256, entryTableCount pageFormat m 3 (m root i) f

namespace MemSystem

/-- Present lower-half leaf PTEs that map `f`. -/
def leafPtes (st : MemSystem) (f : Nat) : Nat :=
  (st.roots.map fun r => leafCount pageFormat st.phys.mem 4 r f).sum

/-- Present lower-half table links that point to `f`. -/
def tableLinks (st : MemSystem) (f : Nat) : Nat :=
  (st.roots.map fun r => linkCount st.phys.mem r f).sum

/-- `1` for a frame pinned at boot, handed out as a root or to a kernel owner. -/
def ownerCount (st : MemSystem) (f : Nat) : Nat :=
  if st.pinned f = true ∨ f ∈ st.roots ∨ f ∈ st.owned then 1 else 0

theorem forestLeaves_trees (st : MemSystem) (f : Nat) :
    forestLeaves pageFormat st.phys.mem st.trees f = st.leafPtes f := by
  rw [forestLeaves, forestWeight, trees, leafPtes, List.map_map]
  rfl

theorem forestTables_trees (st : MemSystem) (f : Nat) :
    forestTables pageFormat st.phys.mem st.trees f =
      st.roots.count f + st.tableLinks f := by
  rw [trees, tableLinks]
  generalize st.roots = roots
  induction roots with
  | nil => rfl
  | cons r rest ih =>
      rw [List.map_cons, forestTables_cons, ih, tableCount_succ]
      simp only [List.map_cons, List.sum_cons, List.count_cons, beq_iff_eq,
        linkCount]
      change (if r = f then 1 else 0) + ∑ i ∈ Finset.range 256, _ + _ = _
      omega

theorem Consistent.ownerCount_eq {st : MemSystem} (h : st.Consistent) (f : Nat) :
    st.ownerCount f = st.held f + st.roots.count f := by
  have honce := h.counted.once f
  rw [forestTables_trees] at honce
  have hroots : f ∈ st.roots ↔ 0 < st.roots.count f :=
    List.count_pos_iff.symm
  have howned : f ∈ st.owned ↔ 0 < st.owned.count f :=
    List.count_pos_iff.symm
  have hbase : f = st.base → 0 < st.roots.count f := by
    rintro hf
    exact hroots.mp (hf ▸ List.mem_cons_self ..)
  simp only [ownerCount, hroots, howned]
  rw [held] at honce ⊢
  by_cases hpinned : st.pinned f = true
  · by_cases hf : f = st.base
    · have := hbase hf
      have hsame : (f != st.base) = false := by simp [hf]
      simp only [hpinned, hsame, true_or, if_true, Bool.and_false,
        Bool.false_eq_true, if_false] at honce ⊢
      omega
    · simp only [hpinned, true_or, if_true, Bool.true_and, bne_iff_ne, ne_eq,
        hf, not_false_eq_true] at honce ⊢
      omega
  · simp only [hpinned, Bool.false_and, Bool.false_eq_true, if_false,
      false_or] at honce ⊢
    split <;> omega

theorem Consistent.exact {st : MemSystem} (h : st.Consistent) {f : Nat}
    (hf : f < st.phys.usablePageCount) :
    st.phys.memoryBitmap f =
      st.ownerCount f + st.leafPtes f + st.tableLinks f := by
  rw [h.counted.exact f hf, forestTables_trees, forestLeaves_trees,
    h.ownerCount_eq]
  omega

end MemSystem

/-! ### Runs from boot -/

/-- What the boot protocol promises of the page tables it hands over: they lie
outside usable memory and map nothing in the lower half. -/
structure BootTables (cr3 : Nat) (memmap : Memmap) (mem : Nat → Nat → Word) :
    Prop where
  notUsable : memmap.isUsable cr3 = false
  lowerEmpty : ∀ i < 256, present (mem cr3 i) = false

/-- Frames pinned at boot: not usable, part of the bitmap, or the zero page. -/
def pinnedAtBoot (memmap : Memmap) (phys : PhysMem) (f : Nat) : Bool :=
  decide (f < phys.usablePageCount) &&
    (!memmap.isUsable f || (memmap.bitmapPhys.any (memmap.inBitmap · f)) ||
      f == phys.zeroPage)

def bootSystem (cr3 : Nat) (memmap : Memmap) (phys : PhysMem) : MemSystem :=
  ⟨phys, cr3, pinnedAtBoot memmap phys, [], []⟩

theorem initPaging_ok {cr3 : Nat} {memmap : Memmap} {mem : Nat → Nat → Word}
    {s : PhysMem} (h : initPaging cr3 memmap mem = .ok s) :
    s.usablePageCount = memmap.highest / pageSize ∧
      s.zeroPage < s.usablePageCount ∧ memmap.isUsable s.zeroPage = true ∧
      (∀ f, s.memoryBitmap f = if f = s.zeroPage then 1
        else if memmap.bitmapPhys.any (memmap.inBitmap · f) then 1
        else if memmap.isUsable f then 0 else 1) ∧
      (∀ f, f ≠ s.zeroPage → s.mem f = mem f) ∧
      (∀ i, s.mem s.zeroPage i = 0#64) ∧ s.firstUsable = s.zeroPage + 1 := by
  rw [initPaging] at h
  split at h
  · cases h
  split at h
  · cases h
  rename_i bitmapPhys hphys
  split at h
  · cases h
  dsimp only at h
  rw [bind_ok] at h
  obtain ⟨⟨z, s₁⟩, hget, h⟩ := h
  obtain ⟨hlt, hzero, rfl⟩ := getAvailableAddress_ok hget
  obtain rfl := Except.ok.inj h
  dsimp only at hlt hzero
  rw [hphys]
  refine ⟨rfl, hlt, ?_, fun f => ?_, fun f hf => if_neg hf, fun i => ?_, rfl⟩
  · split at hzero
    · cases hzero
    split at hzero
    · assumption
    · cases hzero
  · rfl
  · change (if z = z then fun _ => 0#64 else mem z) i = 0#64
    rw [if_pos rfl]

/-- The counts are exact after `init_paging`. -/
theorem bootSystem_consistent {cr3 : Nat} {memmap : Memmap}
    {mem : Nat → Nat → Word} {s : PhysMem} (hboot : BootTables cr3 memmap mem)
    (h : initPaging cr3 memmap mem = .ok s) :
    (bootSystem cr3 memmap s).Consistent := by
  obtain ⟨-, hzlt, hzus, hbitmap, hmem, -, -⟩ := initPaging_ok h
  have hcr3 : cr3 ≠ s.zeroPage := by
    rintro rfl
    rw [hboot.notUsable] at hzus
    cases hzus
  have hempty : ∀ i < pageFormat.width (3 + 1),
      pageFormat.present (s.mem cr3 i) = false := by
    intro i hi
    rw [hmem cr3 hcr3]
    exact hboot.lowerEmpty i hi
  have htab : ∀ f, forestTables pageFormat s.mem [(4, cr3)] f =
      if cr3 = f then 1 else 0 := by
    intro f
    rw [forestTables_cons, tableCount, weight_of_empty pageFormat _ _ hempty]
    rfl
  have hleaf : ∀ f, forestLeaves pageFormat s.mem [(4, cr3)] f = 0 := by
    intro f
    rw [forestLeaves_cons, leafCount, weight_of_empty pageFormat _ _ hempty]
    rfl
  have hheld : ∀ f, (bootSystem cr3 memmap s).held f =
      if pinnedAtBoot memmap s f = true ∧ f ≠ cr3 then 1 else 0 := by
    intro f
    change (if (pinnedAtBoot memmap s f && f != cr3) = true then 1 else 0) + 0 = _
    simp only [Bool.and_eq_true, bne_iff_ne, Nat.add_zero]
  refine ⟨⟨fun f => ?_, fun f hf => ?_, fun f hf => ?_, fun f hf => ?_,
    fun f hf => ?_⟩, ?_⟩
  · rw [hheld]
    change _ + forestTables pageFormat s.mem [(4, cr3)] f ≤ 1
    rw [htab]
    split <;> split <;> omega
  · change s.memoryBitmap f = _ + forestTables pageFormat s.mem [(4, cr3)] f +
      forestLeaves pageFormat s.mem [(4, cr3)] f
    have hf : f < s.usablePageCount := hf
    rw [hheld, htab, hleaf, hbitmap f, Nat.add_zero]
    simp only [pinnedAtBoot, hf, decide_true, Bool.true_and, Bool.or_eq_true,
      Bool.not_eq_true', beq_iff_eq]
    by_cases hfc : f = cr3
    · subst hfc
      rw [if_neg hcr3]
      simp [hboot.notUsable]
    · rw [if_neg (Ne.symm hfc)]
      by_cases hfz : f = s.zeroPage
      · simp [hfz, Ne.symm hcr3]
      · rw [if_neg hfz]
        by_cases hin : memmap.bitmapPhys.any (memmap.inBitmap · f) = true
        · simp [hin, hfc]
        · cases hus : memmap.isUsable f <;> simp [hin, hfc, hfz]
  · rw [hheld] at hf
    split at hf
    · rename_i hpin
      simp only [pinnedAtBoot, Bool.and_eq_true, decide_eq_true_eq] at hpin
      exact hpin.1.1
    · exact absurd hf (Nat.lt_irrefl 0)
  · change 0 < forestLeaves pageFormat s.mem [(4, cr3)] f at hf
    rw [hleaf] at hf
    exact absurd hf (Nat.lt_irrefl 0)
  · change 0 < forestTables pageFormat s.mem [(4, cr3)] f at hf
    rw [htab] at hf
    split at hf
    · rename_i hfc
      exact Or.inr (by simp [MemSystem.trees, MemSystem.roots, bootSystem, hfc])
    · exact absurd hf (Nat.lt_irrefl 0)
  · change (bootSystem cr3 memmap s).held s.zeroPage = 1
    rw [hheld, if_pos]
    refine ⟨?_, Ne.symm hcr3⟩
    simp [pinnedAtBoot, hzlt]

/-! ### A machine with 128 GiB of memory -/

def largeMemmap : Memmap where
  entries := [⟨pageSize, 2 ^ 37, true⟩]
  addr_le := by decide

/-- The frame of the boot root, above all usable memory. -/
def largeRoot : Nat := 2 ^ 30

def userFlags : Flags := ⟨flagsPresent ||| flagsRw ||| flagsUser, by decide⟩

theorem largeMemmap_usable (f : Nat) :
    largeMemmap.isUsable f = decide (1 ≤ f ∧ f < 2 ^ 25 + 1) := by
  have hend : (pageSize + 2 ^ 37) / pageSize = 2 ^ 25 + 1 := by decide
  simp only [Memmap.isUsable, largeMemmap, List.any_cons, List.any_nil,
    Bool.or_false, Bool.true_and, hend, Bool.decide_and]
  rfl

theorem largeMemmap_bitmap (f : Nat) :
    largeMemmap.bitmapPhys.any (largeMemmap.inBitmap · f) =
      decide (1 ≤ f ∧ f < 32770) := by
  have hphys : largeMemmap.bitmapPhys = some 4096 := by decide
  have hrounds : pageRounds 4096 (4096 + largeMemmap.bitmapSize) = 32769 := by
    decide
  rw [hphys]
  change largeMemmap.inBitmap 4096 f = _
  rw [Memmap.inBitmap, hrounds]
  simp [pageSize]

theorem largeRoot_bootTables :
    BootTables largeRoot largeMemmap (fun _ _ => 0#64) := by
  refine ⟨?_, fun i _ => present_zero⟩
  rw [largeMemmap_usable]
  decide

/-- The machine boots, whatever its memory holds, with free memory from frame `32771`
on. -/
theorem large_boots_any (mem : Nat → Nat → Word) :
    ∃ s, initPaging largeRoot largeMemmap mem = .ok s ∧ Roomy s 32771 ∧
      s.usablePageCount = 2 ^ 25 + 1 ∧ s.zeroPage ≠ 0 ∧ s.memoryBitmap s.zeroPage = 1 := by
  set s₀ : PhysMem :=
    { mem := mem
      memoryBitmap := fun f =>
        if largeMemmap.inBitmap 4096 f then 1
        else if largeMemmap.isUsable f then 0 else 1
      firstUsable := 0
      usablePageCount := largeMemmap.highest / pageSize
      zeroPage := 0
      usable_le := Nat.div_le_of_le_mul
        (Nat.le_trans largeMemmap.highest_le (by decide)) } with hs₀
  have hbitmap : ∀ f, s₀.memoryBitmap f =
      if 32770 ≤ f ∧ f < 2 ^ 25 + 1 then 0 else 1 := by
    intro f
    have hin := largeMemmap_bitmap f
    rw [show largeMemmap.bitmapPhys = some 4096 by decide] at hin
    change largeMemmap.inBitmap 4096 f = _ at hin
    change (if largeMemmap.inBitmap 4096 f then 1
      else if largeMemmap.isUsable f then 0 else 1) = _
    rw [hin, largeMemmap_usable]
    simp only [decide_eq_true_eq]
    by_cases hlow : 1 ≤ f ∧ f < 32770
    · rw [if_pos hlow, if_neg (by omega)]
    · rw [if_neg hlow]
      split <;> split <;> omega
  have husable : s₀.usablePageCount = 2 ^ 25 + 1 := by
    change largeMemmap.highest / pageSize = _
    decide
  have hroomy : Roomy s₀ 32770 := by
    refine ⟨Nat.zero_le _, fun f hlo hhi => ?_, ?_⟩
    · rw [hbitmap, if_pos ⟨hlo, by omega⟩]
    · rw [hbitmap]
      decide
  obtain ⟨z, hz, hzne, hget⟩ := getAvailableAddress_progress hroomy
    (by rw [husable]; decide)
  have hinit : initPaging largeRoot largeMemmap mem = .ok
      ((PhysMem.mk (PhysMem.zeroFrame { s₀ with firstUsable := z + 1 } z).mem
        s₀.memoryBitmap (z + 1) s₀.usablePageCount z s₀.usable_le).setCount
          z 1) := by
    rw [initPaging, if_neg (by decide), show largeMemmap.bitmapPhys = some 4096
      by decide]
    change (getAvailableAddress s₀ >>= _) = _
    rw [hget]
    rfl
  refine ⟨_, hinit, ⟨?_, ?_, ?_⟩, husable, hzne, if_pos rfl⟩
  · change z + 1 ≤ 32771
    omega
  · intro f hlo hhi
    change (if f = z then 1 else s₀.memoryBitmap f) = 0
    rw [if_neg (by omega)]
    exact hroomy.free f (by omega) hhi
  · change (if 0 = z then 1 else s₀.memoryBitmap 0) ≠ 0
    rw [if_neg (Ne.symm hzne)]
    exact hroomy.low

theorem large_boots : ∃ s, initPaging largeRoot largeMemmap (fun _ _ => 0#64) =
      .ok s ∧ Roomy s 32771 ∧ s.usablePageCount = 2 ^ 25 + 1 ∧
      s.zeroPage ≠ 0 ∧ s.memoryBitmap s.zeroPage = 1 ∧
      ∀ a < lowerHalf, pte s largeRoot a = none := by
  obtain ⟨s, hinit, hroomy, husable, hzne, hone⟩ := large_boots_any fun _ _ => 0#64
  refine ⟨s, hinit, hroomy, husable, hzne, hone, fun a _ => ?_⟩
  obtain ⟨-, -, hzus, -, hmem, -⟩ := initPaging_ok hinit
  have hroot : largeRoot ≠ s.zeroPage := by
    rintro hsame
    rw [← hsame, largeRoot_bootTables.notUsable] at hzus
    cases hzus
  have habs : ∀ i, present (s.mem largeRoot i) = false := fun i => by
    rw [hmem largeRoot hroot]
    exact present_zero
  exact leafWord_of_empty pageFormat (habs _)

/-- The zero page of this machine can be mapped until its count wraps. -/
theorem large_wraps : ∃ s s₁ s₂,
    initPaging largeRoot largeMemmap (fun _ _ => 0#64) = .ok s ∧
    s.memoryBitmap s.zeroPage = 1 ∧
    (∀ a < lowerHalf, pte s largeRoot a = none) ∧
    allocZeroRegion s largeRoot wrapStart wrapSize userFlags = .ok s₁ ∧
    allocZeroRegion s₁ largeRoot wrapNext pageSize userFlags = .ok s₂ ∧
    s₂.zeroPage = s.zeroPage ∧ s₂.usablePageCount = s.usablePageCount ∧
    s₂.memoryBitmap s.zeroPage = 0 ∧
    Counted (s₂.setCount s.zeroPage (2 ^ 32))
      (bootSystem largeRoot largeMemmap s).held [(4, largeRoot)] ∧
    pte s₂ largeRoot wrapStart = some (zeroWord s.zeroPage userFlags) ∧
    pte s₂ largeRoot wrapNext = some (zeroWord s.zeroPage userFlags) ∧
    forestTables pageFormat s₂.mem [(4, largeRoot)] s.zeroPage = 0 ∧
    s₂.mem s.zeroPage = s.mem s.zeroPage := by
  obtain ⟨s, hinit, hroomy, husable, hzne, hone, habs⟩ := large_boots
  have hcons := bootSystem_consistent largeRoot_bootTables hinit
  have hc : Counted s (bootSystem largeRoot largeMemmap s).held
    [(4, largeRoot)] := hcons.counted
  obtain ⟨s₁, s₂, hwraps⟩ := zeroCount_wraps userFlags hc hcons.zero hzne hone
    habs hroomy (by rw [husable]; decide)
  exact ⟨s, s₁, s₂, hinit, hone, habs, hwraps⟩

/-- The counts are exact in every state a run that fits reaches from boot, and
so a free frame is never in use. -/
theorem run_counts_exact {cr3 : Nat} {memmap : Memmap} {mem : Nat → Nat → Word}
    {s : PhysMem} {ops : List MemOp} {st : MemSystem}
    (hboot : BootTables cr3 memmap mem)
    (hinit : initPaging cr3 memmap mem = .ok s)
    (hrun : Run (fun st op st' => MemStep st op st' ∧ Fits st op)
      (bootSystem cr3 memmap s) ops st) :
    (∀ f < st.phys.usablePageCount, st.phys.memoryBitmap f =
      st.ownerCount f + st.leafPtes f + st.tableLinks f) ∧
    (∀ f < st.phys.usablePageCount, st.phys.memoryBitmap f = 0 →
      ∀ root ∈ st.roots, tableCount pageFormat st.phys.mem 4 root f = 0 ∧
        leafCount pageFormat st.phys.mem 4 root f = 0) ∧
    (∀ f s', getAvailableAddress st.phys = .ok (f, s') →
      ∀ root ∈ st.roots, ∀ a < lowerHalf, ∀ e,
        pte st.phys root a = some e → frameOf e ≠ f) := by
  have h : st.Consistent := hrun.invariant MemSystem.Consistent
    (fun _ _ _ hstep hst => hstep.1.consistent hstep.2 hst)
    (bootSystem_consistent hboot hinit)
  have hfree : ∀ f < st.phys.usablePageCount, st.phys.memoryBitmap f = 0 →
      ∀ root ∈ st.roots, tableCount pageFormat st.phys.mem 4 root f = 0 ∧
        leafCount pageFormat st.phys.mem 4 root f = 0 := by
    intro f hf hzero root hroot
    obtain ⟨-, htab, hleaf⟩ := h.counted.fresh hf hzero
    have htree := MemSystem.mem_trees hroot
    have h1 := tableCount_le_forestTables pageFormat st.phys.mem htree f
    have h2 := leafCount_le_forestLeaves pageFormat st.phys.mem htree f
    rw [htab] at h1
    rw [hleaf] at h2
    exact ⟨Nat.le_zero.mp h1, Nat.le_zero.mp h2⟩
  refine ⟨fun f hf => h.exact hf, hfree, ?_⟩
  intro f s' hget root hroot a ha e hpte hef
  obtain ⟨hlt, hzero, -⟩ := getAvailableAddress_ok hget
  have hpos := leafCount_pos_of_leafWord pageFormat (vpath_inRange ha) hpte
  have hnone := (hfree f hlt hzero root hroot).2
  change 0 < leafCount pageFormat st.phys.mem 4 root (frameOf e) at hpos
  rw [hef] at hpos
  omega

/-- On a machine with 128 GiB, a region of `2 ^ 32 - 2` zero pages is counted
exactly. -/
theorem run_counts_exact_large : ∃ s st,
    initPaging largeRoot largeMemmap (fun _ _ => 0#64) = .ok s ∧
    Run (fun st op st' => MemStep st op st' ∧ Fits st op)
      (bootSystem largeRoot largeMemmap s)
      [.allocZeroRegion largeRoot wrapStart wrapSize userFlags] st ∧
    ∀ f < st.phys.usablePageCount, st.phys.memoryBitmap f =
      st.ownerCount f + st.leafPtes f + st.tableLinks f := by
  obtain ⟨s, s₁, -, hinit, hone, -, hok₁, -⟩ := large_wraps
  have hroot : largeRoot ∈ (bootSystem largeRoot largeMemmap s).roots :=
    List.mem_cons_self ..
  have hfits : Fits (bootSystem largeRoot largeMemmap s)
      (.allocZeroRegion largeRoot wrapStart wrapSize userFlags) := by
    change s.memoryBitmap s.zeroPage + _ < 2 ^ 32
    rw [hone, wrap_rounds.1]
    decide
  have hrun : Run (fun st op st' => MemStep st op st' ∧ Fits st op)
      (bootSystem largeRoot largeMemmap s) _ _ :=
    .single ⟨.allocZeroRegion hroot (by decide) hok₁, hfits⟩
  exact ⟨s, _, hinit, hrun, (run_counts_exact largeRoot_bootTables hinit hrun).1⟩

/-- One page more, and the zero page has count `0` while it is pinned and
mapped. -/
theorem zero_page_count_wraps : ∃ s st,
    initPaging largeRoot largeMemmap (fun _ _ => 0#64) = .ok s ∧
    Run MemStep (bootSystem largeRoot largeMemmap s)
      [.allocZeroRegion largeRoot wrapStart wrapSize userFlags,
        .allocZeroRegion largeRoot wrapNext pageSize userFlags] st ∧
    st.phys.zeroPage < st.phys.usablePageCount ∧
    st.phys.memoryBitmap st.phys.zeroPage = 0 ∧
    st.ownerCount st.phys.zeroPage = 1 ∧
    st.phys.memoryBitmap st.phys.zeroPage ≠ st.ownerCount st.phys.zeroPage +
      st.leafPtes st.phys.zeroPage + st.tableLinks st.phys.zeroPage ∧
    ∃ e, pte st.phys largeRoot wrapNext = some e ∧
      frameOf e = st.phys.zeroPage := by
  obtain ⟨s, s₁, s₂, hinit, -, -, hok₁, hok₂, hzero, husable, hcount, -, -,
    hpte, -⟩ := large_wraps
  have hroot : largeRoot ∈ (bootSystem largeRoot largeMemmap s).roots :=
    List.mem_cons_self ..
  have hzlt : s.zeroPage < s.usablePageCount := (initPaging_ok hinit).2.1
  have hpinned : pinnedAtBoot largeMemmap s s₂.zeroPage = true := by
    rw [hzero]
    simp [pinnedAtBoot, hzlt]
  set st : MemSystem := { bootSystem largeRoot largeMemmap s with phys := s₂ }
  have hfree : st.phys.memoryBitmap st.phys.zeroPage = 0 := by
    change s₂.memoryBitmap s₂.zeroPage = 0
    rw [hzero]
    exact hcount
  have howner : st.ownerCount st.phys.zeroPage = 1 := if_pos (Or.inl hpinned)
  refine ⟨s, st, hinit, .cons (.allocZeroRegion hroot (by decide) hok₁)
    (.single (.allocZeroRegion hroot (by decide) hok₂)), ?_, hfree, howner, ?_,
    _, hpte, ?_⟩
  · change s₂.zeroPage < s₂.usablePageCount
    rw [hzero, husable]
    exact hzlt
  · rw [hfree, howner]
    omega
  · change frameOf _ = s₂.zeroPage
    rw [hzero]
    exact (zeroWord_spec (Nat.lt_of_lt_of_le hzlt s.usable_le) userFlags).2.1

end GlitchedOS
