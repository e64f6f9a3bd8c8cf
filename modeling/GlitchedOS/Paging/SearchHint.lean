/-
The calls that take, share and drop frames, in every order, from the boot page tables
on.  The search hint is right in each state they reach, so what
`get_available_address` hands out is the lowest free frame and it panics only when there
is none.
-/
import GlitchedOS.Paging.FramePool
import GlitchedOS.Paging.Sound
import GlitchedOS.Paging.System

namespace GlitchedOS

open Radix

/-- Physical memory, the root of the boot page tables and the roots handed out by
`clone_page_tables`. -/
structure Machine where
  phys : PhysMem
  base : Nat
  spaces : List Nat

namespace Machine

def roots (st : Machine) : List Nat := st.base :: st.spaces

def trees (st : Machine) : List (Nat × Nat) := st.roots.map fun r => (4, r)

/-- The PDPT of the kernel's half. -/
def kernelPdpt (st : Machine) : Nat := frameOf (st.phys.mem st.base 511)

theorem mem_trees {st : Machine} {root : Nat} (hroot : root ∈ st.roots) :
    (4, root) ∈ st.trees :=
  List.mem_map.mpr ⟨root, hroot, rfl⟩

end Machine

/-- The calls, each in the address space `root`; `store` is what a program writes to a
frame between them. -/
inductive FrameCall where
  | allocatePhysicalPage
  | allocRegion (root vaddr size : Nat) (flags : Flags)
  | cowHandler (root addr : Nat)
  | freePage (root page : Nat)
  | clonePageTables (root : Nat)
  | freePageTables (root : Nat)
  | store (f i : Nat) (e : Word)

namespace FrameCall

def apply (st : Machine) : FrameCall → Except Panic Machine
  | .allocatePhysicalPage => do
      let (_, s) ← GlitchedOS.allocatePhysicalPage st.phys
      .ok { st with phys := s }
  | .allocRegion root vaddr size flags => do
      let s ← allocRegion64 st.phys root vaddr size flags
      .ok { st with phys := s }
  | .cowHandler root addr => do
      let (_, s) ← GlitchedOS.cowHandler st.phys root addr
      .ok { st with phys := s }
  | .freePage root page => .ok { st with phys := (GlitchedOS.freePage st.phys root page).2 }
  | .clonePageTables root => do
      let (new, s) ← GlitchedOS.clonePageTables st.phys root
      .ok { st with phys := s, spaces := new :: st.spaces }
  | .freePageTables root =>
      .ok { st with phys := GlitchedOS.freePageTables st.phys root
                    spaces := st.spaces.erase root }
  | .store f i e => .ok { st with phys := st.phys.writeWord f i e }

/-- The address space is a live one, the pages are user or kernel pages, and programs
write to no page table.  Only cloned address spaces are torn down. -/
def Proper (st : Machine) : FrameCall → Prop
  | .allocatePhysicalPage => True
  | .allocRegion root vaddr size _ => root ∈ st.roots ∧
      ∀ k < regionRounds vaddr size, PageAddr (vaddr + k * pageSize)
  | .cowHandler root addr => root ∈ st.roots ∧ PageAddr addr
  | .freePage root page => root ∈ st.roots ∧ PageAddr page
  | .clonePageTables root => root ∈ st.roots
  | .freePageTables root => root ∈ st.spaces
  | .store f _ _ =>
      forestTables pageFormat st.phys.mem ((3, st.kernelPdpt) :: st.trees) f = 0

end FrameCall

/-- A call that does not panic. -/
def FrameStep (st : Machine) (call : FrameCall) (st' : Machine) : Prop :=
  call.Proper st ∧ call.apply st = .ok st'

theorem clonePageTables_lt {s s' : PhysMem} {root new : Nat}
    (hok : clonePageTables s root = .ok (new, s')) : new < s.usablePageCount := by
  rw [clonePageTables, bind_ok] at hok
  obtain ⟨⟨new, s₁⟩, halloc, hok⟩ := hok
  rw [bind_ok] at hok
  obtain ⟨s₂, -, hok⟩ := hok
  obtain ⟨rfl, -⟩ := Prod.mk.inj (Except.ok.inj hok)
  exact (allocatePhysicalPage_ok halloc).1

/-! ### What every call keeps -/

/-- Sound page tables, counted over every frame a word can name, and a right hint. -/
structure Machine.Hinted (P : Nat) (st : Machine) : Prop where
  sound : ∃ held, Sound P held st.trees st.phys.widen
  below : ∀ r ∈ st.spaces, r < st.phys.usablePageCount
  usable_le : st.phys.usablePageCount ≤ 2 ^ 31
  right : st.phys.pool.Right

theorem count_le_forestTables (m : Nat → Nat → Word) (r : Nat) : ∀ roots : List Nat,
    roots.count r ≤ forestTables pageFormat m (roots.map fun r => (4, r)) r
  | [] => Nat.zero_le _
  | t :: rest => by
      have hrest := count_le_forestTables m r rest
      rw [List.count_cons, List.map_cons, forestTables_cons]
      by_cases ht : t = r
      · subst ht
        have hself : 0 < tableCount pageFormat m 4 t t := tableCount_self_pos pageFormat m 3 t
        rw [if_pos (beq_self_eq_true t)]
        omega
      · rw [if_neg (by simpa using ht)]
        omega

namespace Machine

variable {st st' : Machine} {P : Nat} {s' : PhysMem}

theorem Hinted.length_le (h : st.Hinted P) : st.trees.length ≤ 2 ^ 31 + 1 := by
  obtain ⟨held, hs⟩ := h.sound
  have hnodup : st.spaces.Nodup := by
    rw [List.nodup_iff_count_le_one]
    intro r
    have hcount := count_le_forestTables st.phys.mem r st.roots
    have honce := hs.counted.tables_le_one r
    rw [forestTables_cons] at honce
    have honce : forestTables pageFormat st.phys.mem st.trees r ≤ 1 := by
      rw [PhysMem.widen_mem] at honce
      omega
    have hle : st.spaces.count r ≤ st.roots.count r := List.count_le_count_cons
    exact (hle.trans hcount).trans honce
  have hsub : st.spaces ⊆ List.range st.phys.usablePageCount := fun r hr =>
    List.mem_range.mpr (h.below r hr)
  have hlen := (hnodup.subperm hsub).length_le
  have husable := h.usable_le
  rw [List.length_range] at hlen
  rw [trees, List.length_map, roots, List.length_cons]
  omega

theorem Hinted.room (h : st.Hinted P) {root : Nat} (hroot : root ∈ st.roots) :
    Room st.phys 4 root := by
  obtain ⟨held, hs⟩ := h.sound
  have hheight : ∀ x ∈ st.trees, 0 < x.1 := by
    intro x hx
    obtain ⟨r, -, rfl⟩ := List.mem_map.mp hx
    exact (by decide : 0 < 4)
  have hlen := h.length_le
  exact hs.room hheight (mem_trees hroot) (by omega)

theorem Hinted.kernelPdpt_eq (h : st.Hinted P) : st.kernelPdpt = P := by
  obtain ⟨held, hs⟩ := h.sound
  exact (hs.linked st.base (mem_trees List.mem_cons_self)).2

theorem Hinted.setPhys (h : st.Hinted P) (hreach : st.phys.pool.Reaches s'.pool)
    {held : Nat → Nat} (hs : Sound P held st.trees s'.widen) :
    Hinted P { st with phys := s' } := by
  have hsize : s'.usablePageCount = st.phys.usablePageCount := hreach.size_eq
  refine ⟨⟨held, hs⟩, ?_, ?_, hreach.right h.right⟩
  · intro r hr
    change r < s'.usablePageCount
    rw [hsize]
    exact h.below r hr
  · change s'.usablePageCount ≤ 2 ^ 31
    rw [hsize]
    exact h.usable_le

end Machine

/-- Whatever a call returns, the frames it takes, shares and drops are steps of the pool,
and where it panics for want of memory the pool is exhausted. -/
theorem FrameCall.ends {st : Machine} {P : Nat} {call : FrameCall} (h : st.Hinted P)
    (hproper : call.Proper st) :
    Ends (fun st' : Machine => st'.phys.pool) st.phys.pool (call.apply st) := by
  cases call with
  | allocatePhysicalPage =>
      exact (allocatePhysicalPage_ends st.phys).bind fun _ _ => .ok (.refl _)
  | allocRegion root vaddr size flags =>
      exact (allocRegion64_ends st.phys root vaddr size flags).bind fun _ _ => .ok (.refl _)
  | cowHandler root addr =>
      exact (cowHandler_ends st.phys root addr).bind fun _ _ => .ok (.refl _)
  | freePage root page => exact .ok (freePage_reaches st.phys root page)
  | clonePageTables root =>
      obtain ⟨held, hs⟩ := h.sound
      exact (clonePageTables_ends (hs.counted.perm (front_perm P (Machine.mem_trees hproper)))
        (h.room hproper)).bind fun _ _ => .ok (.refl _)
  | freePageTables root => exact .ok (freePageTables_reaches st.phys root)
  | store f i e => exact .ok (.refl _)

/-- One call keeps the page tables sound and the hint right. -/
theorem FrameStep.hinted {st st' : Machine} {P : Nat} {call : FrameCall}
    (hstep : FrameStep st call st') (h : st.Hinted P) : st'.Hinted P := by
  obtain ⟨hproper, hok⟩ := hstep
  have hreach := (call.ends h hproper).reaches st' hok
  obtain ⟨held, hs⟩ := h.sound
  cases call with
  | allocatePhysicalPage =>
      rw [FrameCall.apply, bind_ok] at hok
      obtain ⟨⟨f, s'⟩, halloc, hok⟩ := hok
      obtain rfl := Except.ok.inj hok
      exact h.setPhys hreach (hs.allocatePhysicalPage
        (allocatePhysicalPage_widen st.phys _ halloc))
  | allocRegion root vaddr size flags =>
      rw [FrameCall.apply, bind_ok] at hok
      obtain ⟨s', halloc, hok⟩ := hok
      obtain rfl := Except.ok.inj hok
      exact h.setPhys hreach (hs.allocRegion64 (Machine.mem_trees hproper.1) hproper.2
        (allocRegion64_widen st.phys root vaddr size flags _ halloc))
  | cowHandler root addr =>
      rw [FrameCall.apply, bind_ok] at hok
      obtain ⟨⟨b, s'⟩, hcow, hok⟩ := hok
      obtain rfl := Except.ok.inj hok
      exact h.setPhys hreach (hs.cowHandler (Machine.mem_trees hproper.1) hproper.2
        (cowHandler_widen st.phys root addr _ hcow))
  | freePage root page =>
      obtain rfl := Except.ok.inj hok
      have hs' := hs.freePage (Machine.mem_trees hproper.1) hproper.2
      rw [freePage_widen] at hs'
      exact h.setPhys hreach hs'
  | clonePageTables root =>
      rw [FrameCall.apply, bind_ok] at hok
      obtain ⟨⟨new, s'⟩, hclone, hok⟩ := hok
      obtain rfl := Except.ok.inj hok
      have hs' := hs.clonePageTables (Machine.mem_trees hproper) (h.room hproper)
        (clonePageTables_widen st.phys root _ hclone)
      have hsize : s'.usablePageCount = st.phys.usablePageCount := hreach.size_eq
      refine ⟨⟨held, hs'.perm (List.Perm.swap ..)⟩, fun r hr => ?_, ?_, hreach.right h.right⟩
      · change r < s'.usablePageCount
        rw [hsize]
        rcases List.mem_cons.mp hr with rfl | hr
        · exact clonePageTables_lt hclone
        · exact h.below r hr
      · change s'.usablePageCount ≤ 2 ^ 31
        rw [hsize]
        exact h.usable_le
  | freePageTables root =>
      obtain rfl := Except.ok.inj hok
      have hperm : st.trees.Perm ((4, root) ::
          (st.base :: st.spaces.erase root).map fun r => (4, r)) := by
        have hroots := ((List.perm_cons_erase hproper).cons st.base).trans
          (List.Perm.swap root st.base _)
        exact hroots.map fun r => (4, r)
      have hs' := hs.freePageTables (Machine.mem_trees (List.mem_cons_of_mem _ hproper))
      rw [freePageTables_widen] at hs'
      have herase := hperm.erase (4, root)
      rw [List.erase_cons_head] at herase
      have hsize : (GlitchedOS.freePageTables st.phys root).usablePageCount =
          st.phys.usablePageCount := hreach.size_eq
      refine ⟨⟨held, hs'.perm herase⟩, fun r hr => ?_, ?_, hreach.right h.right⟩
      · change r < (GlitchedOS.freePageTables st.phys root).usablePageCount
        rw [hsize]
        exact h.below r (List.mem_of_mem_erase hr)
      · change (GlitchedOS.freePageTables st.phys root).usablePageCount ≤ 2 ^ 31
        rw [hsize]
        exact h.usable_le
  | store f i e =>
      obtain rfl := Except.ok.inj hok
      rw [FrameCall.Proper, h.kernelPdpt_eq] at hproper
      exact h.setPhys hreach (hs.store i e hproper)

/-! ### From boot -/

/-- What the boot protocol promises of the kernel's half: its tables and the frames it
maps lie outside usable memory, each has one place, and the kernel image is mapped. -/
structure BootKernel (cr3 : Nat) (memmap : Memmap) (mem : Nat → Nat → Word) : Prop
    extends BootTables cr3 memmap mem where
  linked : present (mem cr3 511) = true
  once : ∀ f, (if cr3 = f then 1 else 0) +
    tableCount pageFormat mem 3 (frameOf (mem cr3 511)) f ≤ 1
  single : Single pageFormat mem 3 (frameOf (mem cr3 511))
  apart : ∀ f, 0 < leafCount pageFormat mem 3 (frameOf (mem cr3 511)) f →
    f ≠ cr3 ∧ tableCount pageFormat mem 3 (frameOf (mem cr3 511)) f = 0
  outside : ∀ f, 0 < tableCount pageFormat mem 3 (frameOf (mem cr3 511)) f +
    leafCount pageFormat mem 3 (frameOf (mem cr3 511)) f → memmap.isUsable f = false
  image : leafWord pageFormat mem (kpath imageBase) 3 (frameOf (mem cr3 511)) ≠ none

section Boot

variable {cr3 : Nat} {memmap : Memmap} {mem : Nat → Nat → Word} {s : PhysMem}

/-- The hint is right when `init_paging` returns. -/
theorem initPaging_right (h : initPaging cr3 memmap mem = .ok s) : s.pool.Right := by
  rw [initPaging] at h
  split at h
  · cases h
  split at h
  · cases h
  split at h
  · cases h
  dsimp only at h
  rw [bind_ok] at h
  obtain ⟨⟨z, s₁⟩, hget, h⟩ := h
  have hright := (take_step hget).right fun f hf => absurd hf (Nat.not_lt_zero f)
  obtain ⟨-, hfree, rfl⟩ := getAvailableAddress_ok hget
  obtain rfl := Except.ok.inj h
  intro f hf
  have hused := hright f hf
  change (if f = z then _ else _) ≠ 0 at hused
  change (if f = z then 1 else _) ≠ 0
  split at hused
  · rw [if_pos ‹_›]
    decide
  · rw [if_neg ‹_›]
    exact hused

/-- The frame that is zeroed is none of the kernel's tables. -/
theorem boot_tables_mem (hboot : BootKernel cr3 memmap mem)
    (hinit : initPaging cr3 memmap mem = .ok s) {f : Nat}
    (hf : 0 < tableCount pageFormat mem 3 (frameOf (mem cr3 511)) f) (i : Nat) :
    s.mem f i = mem f i := by
  obtain ⟨-, -, hzus, -, hmem, -, -⟩ := initPaging_ok hinit
  rw [hmem f]
  rintro rfl
  rw [hboot.outside _ (Nat.lt_of_lt_of_le hf (Nat.le_add_right _ _))] at hzus
  cases hzus

/-- What the kernel's half maps when `init_paging` returns. -/
theorem boot_kpte (hboot : BootKernel cr3 memmap mem)
    (hinit : initPaging cr3 memmap mem = .ok s) (a : Nat) :
    kpte s (frameOf (mem cr3 511)) a =
      leafWord pageFormat mem (kpath a) 3 (frameOf (mem cr3 511)) :=
  leafWord_congr pageFormat (kpath_inRange a) fun _ hf i => boot_tables_mem hboot hinit hf i

theorem boot_hinted (hboot : BootKernel cr3 memmap mem)
    (hinit : initPaging cr3 memmap mem = .ok s) :
    Machine.Hinted (frameOf (mem cr3 511)) ⟨s, cr3, []⟩ := by
  have hagree : ∀ f, 0 < tableCount pageFormat mem 3 (frameOf (mem cr3 511)) f →
      ∀ i, s.mem f i = mem f i := fun _ hf i => boot_tables_mem hboot hinit hf i
  obtain ⟨husable, hzlt, hzus, hbitmap, hmem, -, -⟩ := initPaging_ok hinit
  obtain ⟨⟨hnotUsable, hlowerEmpty⟩, hlinked, honce, hsingle, hapart, houtside, himage⟩ := hboot
  generalize hP : frameOf (mem cr3 511) = P at *
  have hwidth : ∀ k, 0 < pageFormat.width k := fun k =>
    Nat.lt_of_le_of_lt (Nat.zero_le _) (kpath_inRange 0 k)
  have hcr3 : cr3 ≠ s.zeroPage := by
    rintro rfl
    rw [hnotUsable] at hzus
    cases hzus
  have hlower : ∀ i < pageFormat.width (3 + 1), pageFormat.present (s.mem cr3 i) = false := by
    intro i hi
    rw [hmem cr3 hcr3]
    exact hlowerEmpty i hi
  have htab : ∀ f, forestTables pageFormat s.mem [(3, P), (4, cr3)] f =
      tableCount pageFormat mem 3 P f + if cr3 = f then 1 else 0 := by
    intro f
    have hkernel : tableCount pageFormat s.mem 3 P f = tableCount pageFormat mem 3 P f :=
      weight_congr pageFormat _ _ hagree
    have hroot : tableCount pageFormat s.mem 4 cr3 f = if cr3 = f then 1 else 0 :=
      weight_of_empty pageFormat _ _ hlower
    have hnil : forestTables pageFormat s.mem [] f = 0 := rfl
    rw [forestTables_cons, forestTables_cons, hkernel, hroot, hnil, Nat.add_zero]
  have hleaf : ∀ f, forestLeaves pageFormat s.mem [(3, P), (4, cr3)] f =
      leafCount pageFormat mem 3 P f := by
    intro f
    have hkernel : leafCount pageFormat s.mem 3 P f = leafCount pageFormat mem 3 P f :=
      weight_congr pageFormat _ _ hagree
    have hroot : leafCount pageFormat s.mem 4 cr3 f = 0 :=
      weight_of_empty pageFormat _ _ hlower
    have hnil : forestLeaves pageFormat s.mem [] f = 0 := rfl
    rw [forestLeaves_cons, forestLeaves_cons, hkernel, hroot, hnil, Nat.add_zero]
  have hrefs : ∀ f, tableCount pageFormat mem 3 P f + (if cr3 = f then 1 else 0) +
      leafCount pageFormat mem 3 P f ≤ 1 := by
    intro f
    have honce := honce f
    have hone : leafCount pageFormat mem 3 P f ≤ 1 :=
      hsingle.leafCount_le_one pageFormat hwidth
    by_cases hpos : 0 < leafCount pageFormat mem 3 P f
    · obtain ⟨hne, hnone⟩ := hapart f hpos
      rw [hnone, if_neg (Ne.symm hne)]
      omega
    · omega
  have hused : ∀ f, 0 < tableCount pageFormat mem 3 P f + (if cr3 = f then 1 else 0) +
      leafCount pageFormat mem 3 P f → s.memoryBitmap f = 1 := by
    intro f hpos
    have hout : memmap.isUsable f = false := by
      by_cases hf : cr3 = f
      · exact hf ▸ hnotUsable
      · rw [if_neg hf] at hpos
        exact houtside f (by omega)
    have hne : f ≠ s.zeroPage := by
      rintro rfl
      rw [hout] at hzus
      cases hzus
    rw [hbitmap f, if_neg hne, hout]
    simp
  have hle : ∀ f, s.memoryBitmap f ≤ 1 := by
    intro f
    rw [hbitmap f]
    split
    · exact Nat.le_refl _
    split
    · exact Nat.le_refl _
    split <;> omega
  have hword : ∀ q, InRange q →
      leafWord pageFormat s.mem q 3 P = leafWord pageFormat mem q 3 P := fun q hq =>
    leafWord_congr pageFormat hq hagree
  refine ⟨⟨fun f => if f < 2 ^ 40 then s.memoryBitmap f -
      (tableCount pageFormat mem 3 P f + (if cr3 = f then 1 else 0) +
        leafCount pageFormat mem 3 P f) else 0, ?_, ?_, ?_, ?_⟩, nofun, ?_, initPaging_right hinit⟩
  · refine ⟨fun f => ?_, fun f hf => ?_, fun f hf => ?_, fun f hf => ?_, fun f hf => ?_⟩
    · change _ + forestTables pageFormat s.mem [(3, P), (4, cr3)] f ≤ 1
      have h1 := hrefs f
      have h2 := hle f
      have h3 := hused f
      rw [htab]
      split <;> omega
    · change s.memoryBitmap f = _ + forestTables pageFormat s.mem [(3, P), (4, cr3)] f +
        forestLeaves pageFormat s.mem [(3, P), (4, cr3)] f
      have hf : f < 2 ^ 40 := hf
      have h1 := hrefs f
      have h3 := hused f
      rw [htab, hleaf, if_pos hf]
      omega
    · change f < 2 ^ 40
      by_contra hge
      rw [if_neg hge] at hf
      exact Nat.lt_irrefl _ hf
    · change 0 < forestLeaves pageFormat s.mem [(3, P), (4, cr3)] f at hf
      rw [hleaf] at hf
      obtain ⟨e, rfl⟩ := exists_target_of_leafCount_pos pageFormat hf
      exact frameOf_lt e
    · change 0 < forestTables pageFormat s.mem [(3, P), (4, cr3)] f at hf
      rw [htab] at hf
      by_cases hroot : f = P ∨ f = cr3
      · right
        rcases hroot with rfl | rfl
        · exact List.mem_cons_self
        · exact List.mem_cons_of_mem _ List.mem_cons_self
      · left
        rw [if_neg fun h => hroot (Or.inr h.symm), Nat.add_zero] at hf
        obtain ⟨e, rfl⟩ := exists_target_of_tableCount_pos pageFormat hf
          fun h => hroot (Or.inl h)
        exact frameOf_lt e
  · intro x hx
    rcases List.mem_cons.mp hx with rfl | hx
    · refine hsingle.mono pageFormat fun q e hq hleafWord => ⟨e, ?_, rfl⟩
      rw [← hword q hq]
      exact hleafWord
    · obtain rfl := List.mem_singleton.mp hx
      intro p q e e' hp _ hpe
      have hnone : leafWord pageFormat s.mem p 4 cr3 = none :=
        leafWord_of_empty pageFormat (hlower _ (hp 4))
      rw [PhysMem.widen_mem, hnone] at hpe
      cases hpe
  · intro r hr
    obtain rfl : r = cr3 := (Prod.mk.inj (List.mem_singleton.mp hr)).2
    rw [PhysMem.widen_mem, hmem r hcr3]
    exact ⟨hlinked, hP⟩
  · change leafWord pageFormat s.mem (kpath imageBase) 3 P ≠ none
    rw [hword _ (kpath_inRange _)]
    exact himage
  · change s.usablePageCount ≤ 2 ^ 31
    have hhigh := memmap.highest_le
    rw [husable, pageSize]
    omega

/-- In every run from boot no frame below the search hint is free.  So a search hands out
the lowest free frame and fails only when there is none, and whatever a call does to the
counts is done by steps that take the lowest free frame; one that panics for want of
memory has come to counts with no free frame. -/
theorem search_hint_right {calls : List FrameCall} {st : Machine}
    (hboot : BootKernel cr3 memmap mem) (hinit : initPaging cr3 memmap mem = .ok s)
    (hrun : Run FrameStep ⟨s, cr3, []⟩ calls st) :
    (∀ f < st.phys.firstUsable, st.phys.memoryBitmap f ≠ 0) ∧
    (∀ f s', getAvailableAddress st.phys = .ok (f, s') →
      Lowest st.phys.usablePageCount st.phys.memoryBitmap f) ∧
    (∀ reason, getAvailableAddress st.phys = .error reason →
      ∀ f < st.phys.usablePageCount, st.phys.memoryBitmap f ≠ 0) ∧
    ∀ call : FrameCall, call.Proper st →
      (∀ st', call.apply st = .ok st' → ∃ acts,
        Run (LowestStep st.phys.usablePageCount) st.phys.memoryBitmap acts
          st'.phys.memoryBitmap) ∧
      (call.apply st = .error .outOfMemory → ∃ acts count,
        Run (LowestStep st.phys.usablePageCount) st.phys.memoryBitmap acts count ∧
          ∀ f < st.phys.usablePageCount, count f ≠ 0) := by
  have h : st.Hinted (frameOf (mem cr3 511)) := hrun.invariant (Machine.Hinted _)
    (fun _ _ _ hstep hst => hstep.hinted hst) (boot_hinted hboot hinit)
  refine ⟨h.right, fun f s' hget => ?_, fun reason hget => ?_, fun call hproper => ⟨?_, ?_⟩⟩
  · exact ((take_step hget).lowest h.right).lowest
  · exact h.right.full (getAvailableAddress_exhausted hget)
  · intro st' hok
    obtain ⟨acts, hacts⟩ := (call.ends h hproper).reaches st' hok
    exact ⟨acts, (hacts.lowest h.right).1⟩
  · intro herror
    obtain ⟨q, ⟨acts, hacts⟩, hnone⟩ := (call.ends h hproper).exhausted herror
    obtain ⟨hlowest, hright⟩ := hacts.lowest h.right
    refine ⟨acts, q.count, hlowest, ?_⟩
    have hsize : q.size = st.phys.usablePageCount :=
      HintPool.Reaches.size_eq ⟨acts, hacts⟩
    rw [← hsize]
    exact hright.full hnone

end Boot

/-! ### A machine with its kernel image mapped -/

/-- The last word of the boot root leads through three tables to the page of the image; the
word for it lies in each frame from `largeRoot` on, and links the next one. -/
def imageWord (f : Nat) : Nat :=
  if f = largeRoot then 511 else if f = largeRoot + 1 then 510 else 0

def imageMem (f i : Nat) : Word :=
  if largeRoot ≤ f ∧ f < largeRoot + 4 ∧ i = imageWord f then
    (frameAddress (f + 1) &&& pageMask) ||| higherLevelFlags
  else 0#64

theorem imageMem_link {f : Nat} (hlo : largeRoot ≤ f) (hhi : f < largeRoot + 4) :
    present (imageMem f (imageWord f)) = true ∧ frameOf (imageMem f (imageWord f)) = f + 1 := by
  rw [imageMem, if_pos ⟨hlo, hhi, rfl⟩]
  simp only [largeRoot] at hhi
  exact link_word (by omega)

theorem imageMem_absent {f i : Nat} (hi : i ≠ imageWord f) :
    present (imageMem f i) = false := by
  rw [imageMem, if_neg fun h => hi h.2.2]
  exact present_zero

theorem imageMem_weight_succ (α β : Nat → Nat) {h f : Nat} (hh : h < 3) (hlo : largeRoot < f)
    (hhi : f < largeRoot + 4) : weight pageFormat imageMem α β (h + 1) f =
      α f + weight pageFormat imageMem α β h (f + 1) := by
  obtain ⟨hpres, htarget⟩ := imageMem_link (Nat.le_of_lt hlo) hhi
  have hwidth : pageFormat.width (h + 1) = 512 := if_neg (by omega)
  have hi : imageWord f < pageFormat.width (h + 1) := by
    rw [hwidth, imageWord]
    split
    · decide
    split <;> decide
  rw [weight_of_single pageFormat α β hi hpres fun j hj => imageMem_absent hj]
  exact congrArg (fun g => α f + weight pageFormat imageMem α β h g) htarget

theorem imageMem_weight (α β : Nat → Nat) : weight pageFormat imageMem α β 3 (largeRoot + 1) =
    α (largeRoot + 1) + (α (largeRoot + 2) + (α (largeRoot + 3) + β (largeRoot + 4))) := by
  rw [imageMem_weight_succ α β (by decide) (by omega) (by omega),
    imageMem_weight_succ α β (by decide) (by omega) (by omega),
    imageMem_weight_succ α β (by decide) (by omega) (by omega), weight]

theorem imageMem_path {p : Nat → Nat} {e : Word}
    (h : leafWord pageFormat imageMem p 3 (largeRoot + 1) = some e) :
    p 3 = imageWord (largeRoot + 1) ∧ p 2 = imageWord (largeRoot + 2) ∧
      p 1 = imageWord (largeRoot + 3) := by
  have hword : ∀ {f i : Nat}, pageFormat.present (imageMem f i) = true → i = imageWord f := by
    intro f i hpres
    by_contra hne
    have habs : pageFormat.present (imageMem f i) = false := imageMem_absent hne
    rw [habs] at hpres
    cases hpres
  have htarget : ∀ {f : Nat}, largeRoot ≤ f → f < largeRoot + 4 →
      pageFormat.target (imageMem f (imageWord f)) = f + 1 := fun hlo hhi =>
    (imageMem_link hlo hhi).2
  rw [leafWord_succ] at h
  split at h
  · rename_i h3
    rw [hword h3, htarget (by omega) (by omega), leafWord_succ] at h
    split at h
    · rename_i h2
      rw [hword h2, htarget (by omega) (by omega), leafWord_one] at h
      split at h
      · rename_i h1
        exact ⟨hword h3, hword h2, hword h1⟩
      · cases h
    · cases h
  · cases h

theorem imageMem_bootKernel : BootKernel largeRoot largeMemmap imageMem := by
  obtain ⟨hpres, htarget⟩ := imageMem_link (f := largeRoot) (Nat.le_refl _) (by omega)
  have hpdpt : frameOf (imageMem largeRoot 511) = largeRoot + 1 := htarget
  have htab : ∀ f, tableCount pageFormat imageMem 3 (largeRoot + 1) f =
      (if largeRoot + 1 = f then 1 else 0) + ((if largeRoot + 2 = f then 1 else 0) +
        ((if largeRoot + 3 = f then 1 else 0) + 0)) := fun f => imageMem_weight _ _
  have hleaf : ∀ f, leafCount pageFormat imageMem 3 (largeRoot + 1) f =
      0 + (0 + (0 + if largeRoot + 4 = f then 1 else 0)) := fun f => imageMem_weight _ _
  refine ⟨⟨largeRoot_bootTables.notUsable, fun i hi => imageMem_absent ?_⟩, hpres, ?_, ?_, ?_,
    ?_, ?_⟩
  · have hlast : imageWord largeRoot = 511 := if_pos rfl
    omega
  all_goals rw [hpdpt]
  · intro f
    rw [htab]
    repeat' split
    all_goals omega
  · intro p q e e' _ _ hp hq _ j hlo hhi
    obtain ⟨hp3, hp2, hp1⟩ := imageMem_path hp
    obtain ⟨hq3, hq2, hq1⟩ := imageMem_path hq
    obtain rfl | rfl | rfl : j = 1 ∨ j = 2 ∨ j = 3 := by omega
    · rw [hp1, hq1]
    · rw [hp2, hq2]
    · rw [hp3, hq3]
  · intro f hpos
    rw [hleaf] at hpos
    have hf : largeRoot + 4 = f := by
      by_contra hne
      rw [if_neg hne] at hpos
      omega
    subst hf
    rw [htab]
    refine ⟨by omega, ?_⟩
    repeat' split
    all_goals omega
  · intro f hpos
    rw [largeMemmap_usable, decide_eq_false_iff_not]
    rw [htab, hleaf] at hpos
    rw [largeRoot] at hpos
    have hhigh : 2 ^ 30 < f := by
      by_contra hle
      repeat' split at hpos
      all_goals omega
    omega
  · have hlast : kpath imageBase 1 = imageWord (largeRoot + 3) := by decide
    have h2 : kpath imageBase 2 = imageWord (largeRoot + 2) := by decide
    have h3 : kpath imageBase 3 = imageWord (largeRoot + 1) := by decide
    obtain ⟨hp3, ht3⟩ := imageMem_link (f := largeRoot + 1) (by omega) (by omega)
    obtain ⟨hp2, ht2⟩ := imageMem_link (f := largeRoot + 2) (by omega) (by omega)
    obtain ⟨hp1, -⟩ := imageMem_link (f := largeRoot + 3) (by omega) (by omega)
    have hword : leafWord pageFormat imageMem (kpath imageBase) 3 (largeRoot + 1) =
        some (imageMem (largeRoot + 3) (imageWord (largeRoot + 3))) := by
      rw [leafWord_succ, h3]
      refine (if_pos hp3).trans ?_
      rw [show pageFormat.target (imageMem (largeRoot + 1) (imageWord (largeRoot + 1))) =
        largeRoot + 2 from ht3, leafWord_succ, h2]
      refine (if_pos hp2).trans ?_
      rw [show pageFormat.target (imageMem (largeRoot + 2) (imageWord (largeRoot + 2))) =
        largeRoot + 3 from ht2, leafWord_one, hlast]
      exact if_pos hp1
    rw [hword]
    exact Option.some_ne_none _

end GlitchedOS
