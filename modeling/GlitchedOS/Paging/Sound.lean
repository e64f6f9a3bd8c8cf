/-
The page tables as a whole: the lower halves of the address spaces and the kernel's
half that they share.  Every count is exact, no address space maps a frame twice, and
every root leads to the kernel's tables; each paging call keeps it so, at user and at
kernel addresses.
-/
import GlitchedOS.Paging.KernelHalf
import GlitchedOS.Paging.Clone

namespace GlitchedOS

open Radix

variable {s s' : PhysMem} {held : Nat → Nat} {trees rest : List (Nat × Nat)} {P root : Nat}

/-- The first page of the kernel image, which nothing unmaps. -/
def imageBase : Nat := 0xFFFFFFFF80000000

/-- The pages the calls are made for: those of the lower half, and those of the kernel's
half but the first of the image. -/
def PageAddr (addr : Nat) : Prop :=
  addr < lowerHalf ∨ KernelAddr addr ∧ addr / pageSize ≠ imageBase / pageSize

instance (addr : Nat) : Decidable (PageAddr addr) :=
  inferInstanceAs (Decidable (_ ∨ _))

theorem imageBase_kernel : KernelAddr imageBase := by decide

/-- The address spaces `trees` beside the kernel's PDPT `P`. -/
structure Sound (P : Nat) (held : Nat → Nat) (trees : List (Nat × Nat)) (s : PhysMem) :
    Prop where
  counted : Counted s held ((3, P) :: trees)
  separate : Separate pageFormat s.mem ((3, P) :: trees)
  linked : KernelLinked P trees s.mem
  image : kpte s P imageBase ≠ none

/-! ### Changes of the forest as a whole -/

theorem Radix.Separate.subset {m : Nat → Nat → Word} (h : Separate pageFormat m trees)
    (hsub : ∀ x ∈ rest, x ∈ trees) : Separate pageFormat m rest :=
  fun x hx => h x (hsub x hx)

/-- The address space `root` taken to the front of the forest. -/
theorem front_perm (P : Nat) (hroot : (4, root) ∈ trees) :
    ((3, P) :: trees).Perm ((4, root) :: (3, P) :: trees.erase (4, root)) :=
  ((List.perm_cons_erase hroot).cons _).trans (List.Perm.swap ..)

theorem KernelLinked.front (hlink : KernelLinked P trees s.mem) (hroot : (4, root) ∈ trees) :
    KernelLinked P ((4, root) :: (3, P) :: trees.erase (4, root)) s.mem := by
  intro r hr
  rcases List.mem_cons.mp ((front_perm P hroot).mem_iff.mpr hr) with heq | hmem
  · cases heq
  · exact hlink r hmem

theorem mem_front (P : Nat) (hroot : (4, root) ∈ trees) :
    ∀ x ∈ trees, x ∈ (4, root) :: (3, P) :: trees.erase (4, root) := fun _ hx =>
  (front_perm P hroot).mem_iff.mp (List.mem_cons_of_mem _ hx)

namespace Sound

theorem perm (h : Sound P held trees s) (hperm : trees.Perm rest) : Sound P held rest s :=
  ⟨h.counted.perm (hperm.cons _),
    h.separate.subset fun _ hx => (hperm.cons (3, P)).mem_iff.mpr hx,
    h.linked.mono fun _ hx => hperm.mem_iff.mpr hx, h.image⟩

/-- Tables built or released, with no page mapped or unmapped. -/
theorem keep (h : Sound P held trees s) (hc : Counted s' held ((3, P) :: trees))
    (hlink : KernelLinked P trees s'.mem)
    (hleaf : ∀ x ∈ (3, P) :: trees, ∀ q, InRange q →
      leafWord pageFormat s'.mem q x.1 x.2 = leafWord pageFormat s.mem q x.1 x.2) :
    Sound P held trees s' := by
  refine ⟨hc, h.separate.leafCongr hleaf, hlink, ?_⟩
  rw [kpte, hleaf _ List.mem_cons_self _ (kpath_inRange _)]
  exact h.image

end Sound

/-- A page other than the first of the image leaves that one as it is. -/
theorem PageSet.image {h t : Nat} {p : Nat → Nat} {e : Option Word}
    (hset : PageSet h t rest p e s.mem s'.mem)
    (hperm : ((3, P) :: trees).Perm ((h, t) :: rest))
    (hpage : (h, t) = (3, P) → ¬ ∀ j, 0 < j → j ≤ 3 → kpath imageBase j = p j) :
    kpte s' P imageBase = kpte s P imageBase := by
  have hq := kpath_inRange imageBase
  rcases List.mem_cons.mp (hperm.mem_iff.mp List.mem_cons_self) with heq | hrest
  · obtain ⟨rfl, rfl⟩ := Prod.mk.inj heq
    exact hset.other _ hq (hpage rfl)
  · exact hset.elsewhere _ hrest _ hq

namespace Sound

variable {h t : Nat} {p : Nat → Nat}

/-- A page unmapped, and the tables it leaves empty released. -/
theorem release {s₁ : PhysMem} (hs : Sound P held trees s)
    (hperm : ((3, P) :: trees).Perm ((h, t) :: rest))
    (hset : PageSet h t rest p none s.mem s₁.mem) (hsh : Shrinks ((h, t) :: rest) s₁ s')
    (hc : Counted s' held ((h, t) :: rest)) (hlink : KernelLinked P trees s'.mem)
    (hpage : (h, t) = (3, P) → ¬ ∀ j, 0 < j → j ≤ 3 → kpath imageBase j = p j) :
    Sound P held trees s' := by
  have hsep := (hs.separate.subset fun _ hx => hperm.mem_iff.mpr hx).clear hset
  refine ⟨hc.perm hperm.symm, (hsep.leafCongr hsh.leaf).subset fun _ hx =>
    hperm.mem_iff.mp hx, hlink, ?_⟩
  have hkeep : kpte s' P imageBase = kpte s₁ P imageBase :=
    hsh.leaf (3, P) (hperm.mem_iff.mp List.mem_cons_self) _ (kpath_inRange _)
  rw [hkeep, hset.image hperm hpage]
  exact hs.image

/-- A page mapped to a frame that its tree maps nowhere else. -/
theorem set {e : Word} (hs : Sound P held trees s)
    (hperm : ((3, P) :: trees).Perm ((h, t) :: rest))
    (hc : Counted s' held ((h, t) :: rest)) (hset : PageSet h t rest p (some e) s.mem s'.mem)
    (hlink : KernelLinked P trees s'.mem)
    (hpage : (h, t) = (3, P) → ¬ ∀ j, 0 < j → j ≤ 3 → kpath imageBase j = p j)
    (hfresh : ∀ q e', InRange q → ¬ (∀ j, 0 < j → j ≤ h → q j = p j) →
      leafWord pageFormat s.mem q h t = some e' → frameOf e' ≠ frameOf e) :
    Sound P held trees s' := by
  have hsep := (hs.separate.subset fun _ hx => hperm.mem_iff.mpr hx).set hset hfresh
  refine ⟨hc.perm hperm.symm, hsep.subset fun _ hx => hperm.mem_iff.mp hx, hlink, ?_⟩
  rw [hset.image hperm hpage]
  exact hs.image

end Sound

theorem Counted.frame_ne_of_free {h t f : Nat} {q : Nat → Nat} {e : Word}
    (hc : Counted s held ((h, t) :: rest)) (hlt : f < s.usablePageCount)
    (hfree : s.memoryBitmap f = 0) (hq : InRange q)
    (hword : leafWord pageFormat s.mem q h t = some e) : frameOf e ≠ f := by
  rintro rfl
  obtain ⟨-, -, hnone⟩ := hc.fresh hlt hfree
  have hpos : 0 < leafCount pageFormat s.mem h t (frameOf e) :=
    leafCount_pos_of_leafWord pageFormat hq hword
  rw [forestLeaves_cons] at hnone
  omega

/-! ### `alloc_region` -/

theorem Counted.below_ne_root {k d t t₀ : Nat} {l : List Word} {p : Nat → Nat}
    (hc : Counted s held ((k + 1 + (d + 1), t) :: rest)) (hp : InRange p)
    (hd : descend pageFormat s.mem p (k + 1) (d + 1) t = some (l, t₀)) :
    ∀ r, (4, r) ∈ (k + 1 + (d + 1), t) :: rest → t₀ ≠ r := by
  intro r hr
  rcases List.mem_cons.mp hr with heq | hr
  · obtain ⟨-, rfl⟩ := Prod.mk.inj heq
    obtain ⟨l', hpres, -, hrest⟩ := descend_succ_some pageFormat hd
    have hex : Exclusive pageFormat s.mem (k + 1 + d + 1) r := hc.exclusive
    exact (hex.ne_of_below pageFormat (hp _)
      (entryTableCount_descend_pos pageFormat hp hpres hrest)).symm
  · exact hc.table_ne_root hp hd r hr

section Lower

variable {addr : Nat} {c c' : Cursor} {flags : Flags}

theorem vpath_lower (haddr : addr < lowerHalf) : vpath addr 4 ≠ 511 := by
  have hlt : vpath addr 4 < 256 := vpath_inRange haddr 4
  omega

/-- The walk of a round at a user address does not touch the links to the kernel. -/
theorem KernelLinked.lowerWalk {pdpt pd pt : Nat} {sa sb sc : PhysMem}
    (hlink : KernelLinked P ((4, root) :: rest) s.mem) (hc : Counted s held ((4, root) :: rest))
    (haddr : addr < lowerHalf) (hv : c.Valid s.mem root addr)
    (ha : GlitchedOS.cachedTable c.pml4Changed c.pdpt s root (vpath addr 4) = .ok (pdpt, sa))
    (hb : GlitchedOS.cachedTable c.pdptChanged c.pd sa pdpt (vpath addr 3) = .ok (pd, sb))
    (hcc : GlitchedOS.cachedTable c.pdChanged c.pt sb pd (vpath addr 2) = .ok (pt, sc)) :
    KernelLinked P ((4, root) :: rest) sc.mem := by
  have hp := vpath_inRange haddr
  have hall : ∀ r, (4, r) ∈ (4, root) :: rest → (4, r) ∈ (4, root) :: rest := fun _ hr => hr
  obtain ⟨hca, -, -, hsa, l3, hd3⟩ := cachedTable_spec (k := 2) (d := 0) (l := []) hc hp rfl
    hv.pdpt ha
  have hlinka := hlink.cachedTable hc hall (fun _ => vpath_lower haddr) ha
  obtain ⟨hcb, -, -, -, l2, hd2⟩ := cachedTable_spec (k := 1) (d := 1) hca hp hd3
    (fun hfalse => by
      rw [hsa (hv.pdptOrder hfalse)]
      exact hv.pd hfalse) hb
  have hlinkb := hlinka.cachedTable hca hall
    (fun hmem => absurd rfl (hca.below_ne_root (k := 2) (d := 0) hp hd3 _ hmem)) hb
  exact hlinkb.cachedTable hcb hall
    (fun hmem => absurd rfl (hcb.below_ne_root (k := 1) (d := 1) hp hd2 _ hmem)) hcc

theorem KernelLinked.orWords {pdpt pd pt : Nat} (hlink : KernelLinked P trees s.mem)
    (hw : Walked s.mem root addr pdpt pd pt) :
    KernelLinked P trees (orWord (orWord (orWord s root (vpath addr 4) higherLevelFlags)
      pdpt (vpath addr 3) higherLevelFlags) pd (vpath addr 2) higherLevelFlags).mem := by
  have hshape : ∀ {st : PhysMem} {t i : Nat}, present (st.mem t i) = true →
      SameShape pageFormat st.mem (orWord st t i higherLevelFlags).mem := fun hpres =>
    sameShape_write pageFormat (higherLevelFlags_or hpres).1 (higherLevelFlags_or hpres).2
  have h4 := hshape hw.links.1.1
  have hw4 := hw.sameShape h4
  have h3 := hshape hw4.links.2.1.1
  have hw3 := hw4.sameShape h3
  have h2 := hshape hw3.links.2.2.1
  exact ((hlink.sameShape h4).sameShape h3).sameShape h2

theorem regionLeaf_ok {i f : Nat} {e : Word} (h : regionLeaf flags i s = .ok (e, f, s')) :
    LeafOk s e f s' ∧ f < s.usablePageCount ∧ s.memoryBitmap f = 0 ∧ s'.mem = s.mem := by
  rw [regionLeaf, bind_ok] at h
  obtain ⟨⟨g, s₁⟩, hget, h⟩ := h
  obtain ⟨rfl, hrest⟩ := Prod.mk.inj (Except.ok.inj h)
  obtain ⟨rfl, rfl⟩ := Prod.mk.inj hrest
  obtain ⟨hlt, hfree, rfl⟩ := getAvailableAddress_ok hget
  obtain ⟨hpres, htarget, -⟩ := mapWord_spec (Nat.lt_of_lt_of_le hlt s.usable_le) flags
  exact ⟨⟨hpres, htarget, hlt, by omega, _, rfl⟩, hlt, hfree, rfl⟩

/-- Building tables, then mapping a free frame, in the first tree of the forest. -/
theorem Sound.mapFresh {h t f : Nat} {p : Nat → Nat} {e : Word} {s₁ s₂ : PhysMem}
    (hs : Sound P held trees s) (hperm : ((3, P) :: trees).Perm ((h, t) :: rest))
    (hc₁ : Counted s₁ held ((h, t) :: rest)) (hgrow : Grows ((h, t) :: rest) s s₁)
    (hleaf : LeafOk s₁ e f s₂) (hlt : f < s₁.usablePageCount) (hfree : s₁.memoryBitmap f = 0)
    (hc' : Counted s' held ((h, t) :: rest))
    (hset : PageSet h t rest p (some e) s₁.mem s'.mem) (hlink₁ : KernelLinked P trees s₁.mem)
    (hlink : KernelLinked P trees s'.mem)
    (hpage : (h, t) = (3, P) → ¬ ∀ j, 0 < j → j ≤ 3 → kpath imageBase j = p j) :
    Sound P held trees s' := by
  have hs₁ : Sound P held trees s₁ := hs.keep (hc₁.perm hperm.symm) hlink₁
    fun x hx => hgrow.leaf x (hperm.mem_iff.mp hx)
  refine hs₁.set hperm hc' hset hlink hpage fun q e' hq _ hword => ?_
  rw [hleaf.target]
  exact hc₁.frame_ne_of_free hlt hfree hq hword

theorem Sound.lowerRound (hs : Sound P held trees s) (hroot : (4, root) ∈ trees)
    (haddr : addr < lowerHalf) (hv : c.Valid s.mem root addr)
    (hok : allocRound (regionLeaf flags) root addr c s = .ok (c', s')) :
    Sound P held trees s' ∧ c'.Valid s'.mem root (addr + pageSize) := by
  have hperm := front_perm P hroot
  have hc := hs.counted.perm hperm
  have hlink := hs.linked.front hroot
  simp only [allocRound, hv.idx, bind_ok] at hok
  obtain ⟨⟨pdpt, sa⟩, ha, ⟨pd, sb⟩, hb, ⟨pt, sc⟩, hcc, hok⟩ := hok
  obtain ⟨hcw, hgw, hw⟩ := cachedTable_walk hc haddr hv ha hb hcc
  obtain ⟨hco, hgo, hwo⟩ := orWord_walk hcw haddr hw
  have hlinko := (hlink.lowerWalk hc haddr hv ha hb hcc).orWords hw
  dsimp only at hok
  split at hok
  · cases hok
  rename_i habs
  rw [bind_ok] at hok
  obtain ⟨⟨e, f, s₂⟩, hleaf, hok⟩ := hok
  obtain ⟨rfl, rfl⟩ := Prod.mk.inj (Except.ok.inj hok)
  obtain ⟨hleafOk, hlt, hfree, hmem⟩ := regionLeaf_ok hleaf
  obtain ⟨hc', hset, -, hw'⟩ := hco.mapLeaf haddr hwo (Bool.not_eq_true _ ▸ habs) hleafOk
  have hcons := mem_front P hroot
  obtain ⟨l1, hd1⟩ := hwo.pt
  refine ⟨hs.mapFresh hperm hco (hgw.trans hgo) hleafOk hlt hfree hc' hset.pageSet
    (hlinko.mono hcons) ?_ (fun heq => by cases heq), ?_⟩
  · change KernelLinked P trees (write s₂.mem pt (vpath addr 1) e)
    rw [hmem]
    exact (hlinko.mono hcons).write e fun hin => absurd rfl
      (hco.below_ne_root (k := 0) (d := 2) (vpath_inRange haddr) hd1 _ (hcons _ hin))
  · let walked : Cursor :=
      { c with idx := getPageEntry addr, pdpt := pdpt, pd := pd, pt := pt }
    exact Cursor.advance_valid (c := walked) rfl (Cursor.advance_idx haddr rfl) hw'

theorem Sound.kernelRound (hs : Sound P held trees s) (hroot : (4, root) ∈ trees)
    (haddr : KernelAddr addr) (hpage : addr / pageSize ≠ imageBase / pageSize)
    (hv : c.Valid s.mem root addr)
    (hok : allocRound (regionLeaf flags) root addr c s = .ok (c', s')) :
    Sound P held trees s' ∧
      (addr + pageSize < 2 ^ 64 → c'.Valid s'.mem root (addr + pageSize)) := by
  obtain ⟨s₁, e, f, s₂, pd, pt, hc₁, hgrow, hlink₁, hw, habs, hleaf, rfl, rfl⟩ :=
    kernelRound_ok hs.counted hs.linked hroot haddr hv hok
  obtain ⟨hleafOk, hlt, hfree, hmem⟩ := regionLeaf_ok hleaf
  obtain ⟨-, -, l1, hd1⟩ := hw.kernel hlink₁ hroot haddr
  obtain ⟨hc', hset, -⟩ := hc₁.mapPage (d := 2) (kpath_inRange addr) hd1 habs hleafOk
  obtain ⟨hlink', hw'⟩ := hw.writeKernel hc₁ hlink₁ hroot haddr e
  rw [← hmem] at hlink' hw'
  refine ⟨hs.mapFresh (List.Perm.refl _) hc₁ hgrow hleafOk hlt hfree hc' hset hlink₁ hlink' ?_,
    fun hnext => ?_⟩
  · intro _ hsame
    exact hpage ((kpath_samePage haddr imageBase_kernel).mp hsame).symm
  · exact Cursor.advance_valid hv.idx (Cursor.advance_idx_kernel haddr hnext hv.idx) hw'

/-- The rounds of a region: the forest stays sound, and the cursor stands at the next page
when that page is one of the calls'. -/
theorem Sound.rounds {vaddr : Nat} (hs : Sound P held trees s) (hroot : (4, root) ∈ trees) :
    ∀ {n : Nat} {c₁ : Cursor} {s₁ : PhysMem},
      (∀ k < n, PageAddr (vaddr + k * pageSize)) →
      loopRounds (regionRound root vaddr flags) n (Cursor.start vaddr, s) = .ok (c₁, s₁) →
      Sound P held trees s₁ ∧
        (PageAddr (vaddr + n * pageSize) → c₁.Valid s₁.mem root (vaddr + n * pageSize))
  | 0, c₁, s₁, _, h => by
      obtain ⟨rfl, rfl⟩ := Prod.mk.inj (Except.ok.inj h)
      rw [Nat.zero_mul, Nat.add_zero]
      exact ⟨hs, fun _ => Cursor.valid_start _ _ _⟩
  | n + 1, c₁, s₁, hpages, h => by
      rw [loopRounds, bind_ok] at h
      obtain ⟨⟨c₀, s₀⟩, hbefore, h⟩ := h
      obtain ⟨hs₀, hv₀⟩ := hs.rounds hroot (fun k hk => hpages k (Nat.lt_succ_of_lt hk)) hbefore
      have hpage := hpages n (Nat.lt_succ_self n)
      have hv := hv₀ hpage
      rw [Nat.succ_mul, ← Nat.add_assoc]
      rcases hpage with hlow | ⟨hkernel, hother⟩
      · obtain ⟨hs₁, hv₁⟩ := hs₀.lowerRound hroot hlow hv h
        exact ⟨hs₁, fun _ => hv₁⟩
      · obtain ⟨hs₁, hv₁⟩ := hs₀.kernelRound hroot hkernel hother hv h
        refine ⟨hs₁, fun hnext => hv₁ ?_⟩
        rcases hnext with hlow | ⟨hin, -⟩
        · simp only [lowerHalf] at hlow
          omega
        · exact hin.2

theorem Sound.allocRegion64 {vaddr size : Nat} (hs : Sound P held trees s)
    (hroot : (4, root) ∈ trees)
    (hpages : ∀ k < regionRounds vaddr size, PageAddr (vaddr + k * pageSize))
    (hok : GlitchedOS.allocRegion64 s root vaddr size flags = .ok s') :
    Sound P held trees s' := by
  rw [GlitchedOS.allocRegion64, bind_ok] at hok
  obtain ⟨⟨c₁, s₁⟩, hrounds, hok⟩ := hok
  obtain rfl := Except.ok.inj hok
  exact (hs.rounds hroot hpages hrounds).1

end Lower

/-! ### `free_page` -/

/-- `free_page` at a user address: one page unmapped, then tables released, none of them a
root. -/
theorem freePage_lower {page : Nat} {e : Word} (hc : Counted s held ((4, root) :: rest))
    (hlink : KernelLinked P ((4, root) :: rest) s.mem) (hpage : page ≠ 0)
    (haddr : page < lowerHalf) (hpte : pte s root page = some e) :
    KernelLinked P ((4, root) :: rest) (freePage s root page).2.mem ∧
      ∃ s₁, PageSet 4 root rest (vpath page) none s.mem s₁.mem ∧
        Shrinks ((4, root) :: rest) s₁ (freePage s root page).2 := by
  have hp := vpath_inRange haddr
  obtain ⟨pdpt, pd, pt, s₁, s₂, s₃, hsteps, -⟩ := freePage_steps hc hpage haddr hpte
  obtain ⟨-, hsh₂, hsh₃, hsh₄⟩ := hsteps.shrinks haddr
  obtain ⟨l1, hd1⟩ := hsteps.walk.pt
  obtain ⟨l2, hd2⟩ := hsteps.walk₁.pd
  obtain ⟨l3, hd3⟩ := hsteps.pdpt₂
  obtain ⟨-, hset⟩ := hc.unmapPage (d := 3) hp hd1 hsteps.pres
  have hlink₁ := hlink.write (t := pt) (i := vpath page 1) 0#64
    fun hmem => absurd rfl (hc.below_ne_root (k := 0) (d := 2) hp hd1 _ hmem)
  rw [← hsteps.mem₁] at hlink₁
  have hlink₂ := hlink₁.releaseIfEmpty pt (i := vpath page 2)
    fun hmem => absurd rfl (hsteps.counted₁.below_ne_root (k := 1) (d := 1) hp hd2 _ hmem)
  rw [← hsteps.freePt] at hlink₂
  have hlink₃ := hlink₂.releaseIfEmpty pd (i := vpath page 3)
    fun hmem => absurd rfl (hsteps.counted₂.below_ne_root (k := 2) (d := 0) hp hd3 _ hmem)
  rw [← hsteps.freePd] at hlink₃
  have hlink₄ := hlink₃.releaseIfEmpty pdpt fun (_ : (4, root) ∈ _) => vpath_lower haddr
  rw [← hsteps.freePdpt] at hlink₄
  rw [← hsteps.unmap] at hset
  exact ⟨hlink₄, s₁, hset, (hsh₂.trans hsh₃).trans hsh₄⟩

theorem Sound.freePage {page : Nat} (hs : Sound P held trees s) (hroot : (4, root) ∈ trees)
    (hpage : PageAddr page) : Sound P held trees (GlitchedOS.freePage s root page).2 := by
  rcases hpage with hlow | ⟨hkernel, hother⟩
  · have hperm := front_perm P hroot
    have hc := hs.counted.perm hperm
    by_cases hzero : page = 0
    · rw [GlitchedOS.freePage, if_pos hzero]
      exact hs
    cases hpte : pte s root page with
    | none =>
        rw [freePage_unmapped hpte]
        exact hs
    | some e =>
        obtain ⟨hlink, s₁, hset, hsh⟩ := freePage_lower hc (hs.linked.front hroot) hzero hlow
          hpte
        exact hs.release hperm hset hsh (freePage_counted hc hlow)
          (hlink.mono (mem_front P hroot)) fun heq => by cases heq
  · by_cases hpte : kpte s P page = none
    · rw [freePage_unmapped ((pte_kernel hs.linked hroot hkernel).trans hpte)]
      exact hs
    · obtain ⟨hc, hlink, s₁, hset, hsh⟩ := freePage_kernel hs.counted hs.linked hroot hkernel
        hpte imageBase_kernel (Ne.symm hother) hs.image
      exact hs.release (List.Perm.refl _) hset hsh hc hlink fun _ hsame =>
        hother ((kpath_samePage hkernel imageBase_kernel).mp hsame).symm

/-! ### `cow_handler` -/

/-- Copying a frame onto a free one changes nothing a walk can see. -/
theorem Sound.copyFree (hs : Sound P held trees s) (src : Nat) {new : Nat}
    (hlt : new < s.usablePageCount) (hfree : s.memoryBitmap new = 0) :
    Sound P held trees (s.copyFrame src new) := by
  obtain ⟨hc, -, hagree⟩ := hs.counted.copyFree src hlt hfree
  refine hs.keep hc ?_ fun x hx q hq => leafWord_congr pageFormat hq (hagree x hx)
  refine hs.linked.congr fun r hr => ?_
  have hne : r ≠ new := by
    rintro rfl
    rcases hs.counted.root_inUse (List.mem_cons_of_mem _ hr) with hused | hout
    · exact hused hfree
    · omega
  simp only [PhysMem.copyFrame, if_neg hne]

theorem Sound.resolveCow {d t pt : Nat} {b : Bool} {p : Nat → Nat} {l : List Word}
    (hs : Sound P held trees s) (hperm : ((3, P) :: trees).Perm ((0 + 1 + d, t) :: rest))
    (hp : InRange p) (hd : descend pageFormat s.mem p 1 d t = some (l, pt))
    (hpres : present (s.mem pt (p 1)) = true)
    (hpage : (0 + 1 + d, t) = (3, P) → ¬ ∀ j, 0 < j → j ≤ 3 → kpath imageBase j = p j)
    (hroots : ∀ r, (4, r) ∈ trees → pt ≠ r)
    (hok : GlitchedOS.resolveCow s pt (p 1) = .ok (b, s')) : Sound P held trees s' := by
  have hc := hs.counted.perm hperm
  have hlinked : ∀ {st : PhysMem} (e : Word), KernelLinked P trees st.mem →
      KernelLinked P trees (write st.mem pt (p 1) e) := fun e hlink =>
    hlink.write e fun hin => absurd rfl (hroots _ hin)
  set e := s.mem pt (p 1) with he
  rcases resolveCow_ok (hc.table_ne_free hp hd) hok with
    ⟨-, -, rfl⟩ | ⟨-, -, husable, -, hcases⟩
  · exact hs
  rcases hcases with ⟨new, hlt, hfree, hshared, hbitmap, hmem⟩ | ⟨-, hbitmap, hmem⟩
  · -- the page goes to a frame that nothing maps
    obtain ⟨hpres', htarget', -⟩ := copiedWord_spec (Nat.lt_of_lt_of_le hlt s.usable_le) e
    set e' := (frameAddress new &&& pageMask) ||| (e &&& ~~~flagsCow &&& flagsMask) ||| flagsRw
    rw [← he] at hshared
    have hold : frameOf e ≠ new := by
      rintro hsame
      rw [hsame] at hshared
      omega
    have hsc := hs.copyFree (frameOf e) hlt hfree
    obtain ⟨hcsc, -, hagree⟩ := hc.copyFree (frameOf e) hlt hfree
    set sc := s.copyFrame (frameOf e) new
    have hdsc : descend pageFormat sc.mem p 1 d t = some (l, pt) := by
      rw [← hd]
      refine descend_congr pageFormat hp ?_
      rw [show 1 + d = 0 + 1 + d by omega]
      exact hagree _ List.mem_cons_self
    have hword : sc.mem pt (p 1) = e := by
      have hne : pt ≠ new := hc.table_ne_free hp hd new hlt hfree
      simp only [sc, PhysMem.copyFrame, if_neg hne, he]
    have hc' : Counted s' held ((0 + 1 + d, t) :: rest) := by
      refine hcsc.setLeaf hp hdsc e' hmem husable ?_ fun _ => ?_
      · intro f _
        rw [hbitmap f, hword, if_pos hpres, if_pos (hpres'.trans hpres), htarget', ← he]
        change _ = s.memoryBitmap f + _
        by_cases hnew : f = new
        · subst hnew
          rw [if_pos rfl, if_pos rfl, if_neg hold, hfree]
        · rw [if_neg hnew, if_neg (Ne.symm hnew)]
          by_cases hfe : f = frameOf e
          · subst hfe
            rw [if_pos rfl, if_pos rfl]
            omega
          · rw [if_neg hfe, if_neg (Ne.symm hfe)]
      · rw [htarget']
        exact hlt
    have hset := hcsc.pageSet hp hdsc e'
    rw [if_pos (hpres'.trans hpres)] at hset
    refine hsc.set hperm hc' (hmem ▸ hset) (hmem ▸ hlinked e' hsc.linked) hpage ?_
    intro q e₁ hq _ hword₁
    rw [htarget']
    exact hcsc.frame_ne_of_free hlt hfree hq hword₁
  · -- the page stays where it is
    obtain ⟨hpres', htarget', -⟩ := reusedWord_spec e
    set e' := (e &&& ~~~flagsCow) ||| flagsRw
    have hword : leafWord pageFormat s.mem p (0 + 1 + d) t = some e := by
      rw [leafWord_of_descend pageFormat (k := 0) hd, leafWord_one]
      exact if_pos hpres
    have hpos : 0 < forestLeaves pageFormat s.mem ((0 + 1 + d, t) :: rest) (frameOf e) := by
      have hleaf : 0 < leafCount pageFormat s.mem (0 + 1 + d) t (frameOf e) :=
        leafCount_pos_of_leafWord pageFormat hp hword
      rw [forestLeaves_cons]
      omega
    have hc' : Counted s' held ((0 + 1 + d, t) :: rest) := by
      refine hc.setLeaf hp hd e' hmem husable ?_ fun _ => ?_
      · intro f _
        rw [hbitmap, hpres', htarget']
      · rw [htarget']
        exact hc.leaf_lt _ hpos
    have hset := hc.pageSet hp hd e'
    rw [if_pos (hpres'.trans hpres)] at hset
    refine hs.set hperm hc' (hmem ▸ hset) (hmem ▸ hlinked e' hs.linked) hpage ?_
    intro q e₁ hq hother hword₁ hsame
    exact hother (hs.separate _ (hperm.mem_iff.mpr List.mem_cons_self) q p e₁ e hq hp hword₁
      hword (hsame.trans htarget'))

theorem Sound.cowHandler {addr : Nat} {b : Bool} (hs : Sound P held trees s)
    (hroot : (4, root) ∈ trees) (hpage : PageAddr addr)
    (hok : GlitchedOS.cowHandler s root addr = .ok (b, s')) : Sound P held trees s' := by
  cases hpte : pte s root addr with
  | none =>
      rw [cowHandler_unmapped hpte] at hok
      obtain ⟨-, rfl⟩ := Prod.mk.inj (Except.ok.inj hok)
      exact hs
  | some e =>
      obtain ⟨pdpt, pd, pt, hw, hpres, -⟩ := walked_of_pte hpte
      rw [cowHandler_mapped hw hpres] at hok
      rcases hpage with hlow | ⟨hkernel, hother⟩
      · have hp := vpath_inRange hlow
        have hperm := front_perm P hroot
        obtain ⟨l1, hd1⟩ := hw.pt
        refine hs.resolveCow (d := 3) hperm hp hd1 hpres (fun heq => by cases heq) ?_ hok
        intro r hr
        exact (hs.counted.perm hperm).below_ne_root (k := 0) (d := 2) hp hd1 r
          (mem_front P hroot _ hr)
      · have hp := kpath_inRange addr
        obtain ⟨-, -, l1, hd1⟩ := hw.kernel hs.linked hroot hkernel
        refine hs.resolveCow (d := 2) (List.Perm.refl _) hp hd1 hpres ?_ ?_ hok
        · intro _ hsame
          exact hother ((kpath_samePage hkernel imageBase_kernel).mp hsame).symm
        · exact hs.counted.table_ne_root (k := 0) (d := 2) hp hd1

/-! ### `clone_page_tables` and `free_page_tables` -/

theorem clonePageTables_last {new : Nat} (hok : clonePageTables s root = .ok (new, s')) :
    s'.mem new 511 = s'.mem root 511 := by
  rw [clonePageTables, bind_ok] at hok
  obtain ⟨⟨new, s₁⟩, -, hok⟩ := hok
  rw [bind_ok] at hok
  obtain ⟨s₂, hrounds, hok⟩ := hok
  obtain ⟨rfl, rfl⟩ := Prod.mk.inj (Except.ok.inj hok)
  rw [show 512 = 511 + 1 by rfl, loopRounds, bind_ok] at hrounds
  obtain ⟨s₀, -, hlast⟩ := hrounds
  rw [if_pos (by decide)] at hlast
  obtain rfl := Except.ok.inj hlast
  rw [PhysMem.writeWord_mem, write_same, write]
  split <;> rfl

/-- A copy maps what the original does, so it maps no frame twice either. -/
theorem Sound.clonePageTables {new : Nat} (hs : Sound P held trees s)
    (hroot : (4, root) ∈ trees) (hroom : Room s 4 root)
    (hok : GlitchedOS.clonePageTables s root = .ok (new, s')) :
    Sound P held ((4, new) :: trees) s' := by
  have hperm := front_perm P hroot
  have h := clonePageTables_upTo (hs.counted.perm hperm) hroom hok
  have hall : ∀ q, Below (vpath 0) 4 q := fun q j hlo hhi => by omega
  have hshape : ∀ r, (4, r) ∈ trees → present (s'.mem r 511) = true ∧
      frameOf (s'.mem r 511) = P := by
    intro r hr
    have huse : InUse s r := fun hlt => by
      rcases hs.counted.root_inUse (List.mem_cons_of_mem _ hr) with hused | hout
      · exact hused
      · omega
    obtain ⟨hpres, htarget⟩ := h.shape r huse 511
    exact ⟨hpres.trans (hs.linked r hr).1, htarget.trans (hs.linked r hr).2⟩
  have hsingle := hs.separate (4, root) (hperm.mem_iff.mpr List.mem_cons_self)
  have hcopy : ∀ t, (∀ q, InRange q → leafWord pageFormat s'.mem q 4 t =
      (leafWord pageFormat s.mem q 4 root).map shareWord) → Single pageFormat s'.mem 4 t := by
    intro t ht
    refine hsingle.mono pageFormat fun q e' hq hword => ?_
    rw [ht q hq, Option.map_eq_some_iff] at hword
    obtain ⟨e, hword, rfl⟩ := hword
    exact ⟨e, hword, (frameOf_shareWord e).symm⟩
  refine ⟨h.counted.perm ((hperm.symm.cons _).trans (List.Perm.swap ..)), ?_, ?_, ?_⟩
  · intro x hx
    rcases List.mem_cons.mp hx with rfl | hx
    · refine (hs.separate _ List.mem_cons_self).mono pageFormat fun q e hq hword => ⟨e, ?_, rfl⟩
      rw [← h.elsewhere _ List.mem_cons_self q hq, hword]
    rcases List.mem_cons.mp hx with rfl | hx
    · exact hcopy new fun q hq => h.copied q hq (hq 4)
    rcases List.mem_cons.mp (mem_front P hroot x hx) with rfl | hrest
    · exact hcopy root fun q hq => h.shared q hq (hall q) (hq 4)
    · refine (hs.separate x (List.mem_cons_of_mem _ hx)).mono pageFormat
        fun q e hq hword => ⟨e, ?_, rfl⟩
      rw [← h.elsewhere x hrest q hq, hword]
  · intro r hr
    rcases List.mem_cons.mp hr with heq | hr
    · obtain ⟨-, rfl⟩ := Prod.mk.inj heq
      rw [clonePageTables_last hok]
      exact hshape root hroot
    · exact hshape r hr
  · rw [kpte, h.elsewhere _ List.mem_cons_self _ (kpath_inRange _)]
    exact hs.image

theorem Sound.freePageTables (hs : Sound P held trees s) (hroot : (4, root) ∈ trees) :
    Sound P held (trees.erase (4, root)) (GlitchedOS.freePageTables s root) := by
  obtain ⟨hc, hsame, -⟩ := freePageTables_spec (hs.counted.perm (front_perm P hroot))
  have hsub : ∀ x ∈ trees.erase (4, root), x ∈ trees := fun _ => List.mem_of_mem_erase
  refine ⟨hc, ?_, ?_, ?_⟩
  · rw [hsame.mem]
    refine hs.separate.subset fun x hx => ?_
    rcases List.mem_cons.mp hx with rfl | hx
    · exact List.mem_cons_self
    · exact List.mem_cons_of_mem _ (hsub x hx)
  · rw [hsame.mem]
    exact hs.linked.mono hsub
  · rw [kpte, hsame.mem]
    exact hs.image

theorem Sound.allocatePhysicalPage {f : Nat} (hs : Sound P held trees s)
    (hok : GlitchedOS.allocatePhysicalPage s = .ok (f, s')) :
    Sound P (fun g => held g + if f = g then 1 else 0) trees s' := by
  obtain ⟨hgrow, hnil, hother⟩ := hs.counted.grows_allocatePhysicalPage hok
  obtain ⟨hlt, hfree, -⟩ := allocatePhysicalPage_ok hok
  have hc := (hs.counted.allocatePhysicalPage hok 0).own (hgrow.usable ▸ hlt)
    fun i _ => by rw [hnil i]; exact present_zero
  refine ⟨hc, hs.separate.leafCongr hgrow.leaf, ?_, ?_⟩
  · refine hs.linked.congr fun r hr => ?_
    have hne : r ≠ f := by
      rintro rfl
      rcases hs.counted.root_inUse (List.mem_cons_of_mem _ hr) with hused | hout
      · exact hused hfree
      · omega
    rw [hother r hne]
  · rw [kpte, hgrow.leaf _ List.mem_cons_self _ (kpath_inRange _)]
    exact hs.image

def TableFrame (P : Nat) (trees : List (Nat × Nat)) (s : PhysMem) (f : Nat) : Prop :=
  0 < forestTables pageFormat s.mem ((3, P) :: trees) f

theorem Sound.sameTables (hs : Sound P held trees s)
    (h : SameTables (TableFrame P trees s) s s') : Sound P held trees s' := by
  obtain ⟨⟨m, rfl⟩, hmem⟩ := h
  refine hs.keep (hs.counted.memCongr (fun f hf i => congrFun (hmem f hf) i) rfl rfl) ?_ ?_
  · refine hs.linked.congr fun r hr => congrFun (hmem r ?_) 511
    exact Nat.lt_of_lt_of_le (tableCount_self_pos pageFormat s.mem 3 r)
      (tableCount_le_forestTables pageFormat s.mem (List.mem_cons_of_mem _ hr) r)
  · intro x hx q hq
    refine leafWord_congr pageFormat hq fun f hf i => congrFun (hmem f ?_) i
    exact Nat.lt_of_lt_of_le hf (tableCount_le_forestTables pageFormat s.mem hx f)

theorem Sound.store {f : Nat} (hs : Sound P held trees s) (i : Nat) (e : Word)
    (hout : forestTables pageFormat s.mem ((3, P) :: trees) f = 0) :
    Sound P held trees (s.writeWord f i e) := by
  refine hs.sameTables ⟨⟨_, rfl⟩, fun g hg => funext fun j => write_frame_ne _ i e ?_ j⟩
  rintro rfl
  exact Nat.ne_of_gt hg hout

/-- With fewer than `2 ^ 31` address spaces there is room in every count. -/
theorem Sound.room (hs : Sound P held trees s) (hheight : ∀ x ∈ trees, 0 < x.1)
    (hroot : (4, root) ∈ trees) (hlen : trees.length < 2 ^ 31 + 2) : Room s 4 root := by
  have hwidth : ∀ k, 0 < pageFormat.width k := fun k =>
    Nat.lt_of_le_of_lt (Nat.zero_le _) (kpath_inRange 0 k)
  intro f hpos
  have hlt : f < s.usablePageCount := hs.counted.leaf_lt f
    (Nat.lt_of_lt_of_le hpos (leafCount_le_forestLeaves pageFormat s.mem
      (List.mem_cons_of_mem _ hroot) f))
  have hleaves : forestLeaves pageFormat s.mem ((3, P) :: trees) f ≤ trees.length + 1 :=
    hs.separate.forestLeaves_le pageFormat hwidth fun x hx => by
      rcases List.mem_cons.mp hx with rfl | hx
      · exact (by decide : 0 < 3)
      · exact hheight x hx
  have hone : leafCount pageFormat s.mem 4 root f ≤ 1 :=
    (hs.separate (4, root) (List.mem_cons_of_mem _ hroot)).leafCount_le_one pageFormat hwidth
  have hexact := hs.counted.exact f hlt
  have honce := hs.counted.once f
  omega

end GlitchedOS
