/-
The half of the address space that every process shares.  The last word of each PML4
leads to one PDPT, set up at boot and copied by `clone_page_tables`, so the kernel's
mappings are a tree of their own beside those of the lower halves.  An allocation or a
release at a kernel address, in whatever address space, works on that tree.
-/
import GlitchedOS.Lib.RadixLeaves
import GlitchedOS.Paging.Region
import GlitchedOS.Paging.Cow

namespace GlitchedOS

open Radix

variable {s s' : PhysMem} {held : Nat → Nat} {trees rest : List (Nat × Nat)} {P root : Nat}
variable {p : Nat → Nat} {l : List Word}

def KernelAddr (addr : Nat) : Prop := 2 ^ 64 - 2 ^ 39 ≤ addr ∧ addr < 2 ^ 64

instance (addr : Nat) : Decidable (KernelAddr addr) :=
  inferInstanceAs (Decidable (_ ∧ _))

/-- The indices of a kernel address below its PML4. -/
def kpath (addr : Nat) : Nat → Nat := fun j => if j = 4 then 0 else vpath addr j

theorem kpath_of_lt {addr j : Nat} (hj : j < 4) : kpath addr j = vpath addr j :=
  if_neg (by omega)

theorem kpath_inRange (addr : Nat) : InRange (kpath addr) := by
  intro k
  match k with
  | 0 => exact (by decide : 0 < 512)
  | 1 => exact Nat.mod_lt _ (by decide)
  | 2 => exact Nat.mod_lt _ (by decide)
  | 3 => exact Nat.mod_lt _ (by decide)
  | 4 => exact (by decide : 0 < 256)
  | k + 5 =>
      change kpath addr (k + 5) < if k + 5 = 4 then 256 else 512
      rw [if_neg (by omega), kpath, if_neg (by omega)]
      exact (by decide : 0 < 512)

theorem vpath_kernel {addr : Nat} (haddr : KernelAddr addr) : vpath addr 4 = 511 := by
  obtain ⟨hlo, hhi⟩ := haddr
  rw [vpath_pml4, getPageEntry]
  dsimp only
  omega

/-- Two kernel addresses take the same path when they lie in the same page. -/
theorem kpath_samePage {a b : Nat} (ha : KernelAddr a) (hb : KernelAddr b) :
    (∀ j, 0 < j → j ≤ 3 → kpath b j = kpath a j) ↔ b / pageSize = a / pageSize := by
  obtain ⟨halo, hahi⟩ := ha
  obtain ⟨hblo, hbhi⟩ := hb
  constructor
  · intro h
    have h1 := h 1 (by decide) (by decide)
    have h2 := h 2 (by decide) (by decide)
    have h3 := h 3 (by decide) (by decide)
    rw [kpath_of_lt (by decide), kpath_of_lt (by decide)] at h1 h2 h3
    simp only [vpath, getPageEntry] at h1 h2 h3
    simp only [pageSize]
    omega
  · intro h j hlo hhi
    simp only [pageSize] at h
    rw [kpath_of_lt (by omega), kpath_of_lt (by omega)]
    obtain rfl | rfl | rfl : j = 1 ∨ j = 2 ∨ j = 3 := by omega
    all_goals
      simp only [vpath, getPageEntry]
      omega

/-- The word that maps the page of a kernel address. -/
def kpte (s : PhysMem) (P addr : Nat) : Option Word :=
  leafWord pageFormat s.mem (kpath addr) 3 P

/-- Every root of a forest links the table `P` from its last word. -/
def KernelLinked (P : Nat) (trees : List (Nat × Nat)) (m : Nat → Nat → Word) : Prop :=
  ∀ r, (4, r) ∈ trees → present (m r 511) = true ∧ frameOf (m r 511) = P

namespace KernelLinked

variable {m m' : Nat → Nat → Word}

theorem congr (h : KernelLinked P trees m) (hsame : ∀ r, (4, r) ∈ trees → m' r 511 = m r 511) :
    KernelLinked P trees m' := by
  intro r hr
  rw [hsame r hr]
  exact h r hr

theorem sameShape (h : KernelLinked P trees m) (hshape : SameShape pageFormat m m') :
    KernelLinked P trees m' := by
  intro r hr
  obtain ⟨hpres, htarget⟩ := hshape r 511
  exact ⟨hpres.trans (h r hr).1, htarget.trans (h r hr).2⟩

theorem write (h : KernelLinked P trees m) {t i : Nat} (e : Word)
    (hout : (4, t) ∈ trees → i ≠ 511) : KernelLinked P trees (write m t i e) := by
  refine h.congr fun r hr => ?_
  rw [Radix.write, if_neg]
  rintro ⟨rfl, rfl⟩
  exact hout hr rfl

theorem mono (h : KernelLinked P trees m) (hsub : ∀ x ∈ rest, x ∈ trees) : KernelLinked P rest m :=
  fun r hr => h r (hsub _ hr)

end KernelLinked

theorem pte_kernel (hlink : KernelLinked P trees s.mem) (hroot : (4, root) ∈ trees) {addr : Nat}
    (haddr : KernelAddr addr) : pte s root addr = kpte s P addr := by
  obtain ⟨hpres, htarget⟩ := hlink root hroot
  rw [pte, leafWord_succ, vpath_kernel haddr]
  refine (if_pos hpres).trans ?_
  rw [kpte, ← htarget]
  exact leafWord_path_congr pageFormat fun j _ hj => (kpath_of_lt (by omega)).symm

/-- The way from a root to a kernel address goes on in the tree of `P`. -/
theorem descend_kernel {m : Nat → Nat → Word} {addr k d t : Nat}
    (hlink : KernelLinked P trees m) (hroot : (4, root) ∈ trees) (haddr : KernelAddr addr)
    (hkd : k + d = 3) (h : descend pageFormat m (vpath addr) k (d + 1) root = some (l, t)) :
    ∃ l', descend pageFormat m (kpath addr) k d P = some (l', t) := by
  obtain ⟨-, htarget⟩ := hlink root hroot
  obtain ⟨rest, -, -, h⟩ := descend_succ_some pageFormat h
  have hidx : vpath addr (k + d + 1) = 511 := by
    rw [hkd]
    exact vpath_kernel haddr
  rw [hidx] at h
  refine ⟨rest, ?_⟩
  rw [← h, ← htarget]
  exact descend_path_congr pageFormat fun j _ hj => kpath_of_lt (by omega)

theorem descend_shared {m : Nat → Nat → Word} {addr k d t : Nat}
    (hlink : KernelLinked P trees m) (hroot : (4, root) ∈ trees) (haddr : KernelAddr addr)
    (hkd : k + d = 3) (h : descend pageFormat m (kpath addr) k d P = some (l, t)) :
    ∃ l', descend pageFormat m (vpath addr) k (d + 1) root = some (l', t) := by
  obtain ⟨hpres, htarget⟩ := hlink root hroot
  have hidx : vpath addr (k + d + 1) = 511 := by
    rw [hkd]
    exact vpath_kernel haddr
  have hpath : descend pageFormat m (vpath addr) k d P = some (l, t) := by
    rw [← h]
    exact descend_path_congr pageFormat fun j _ hj => (kpath_of_lt (by omega)).symm
  refine ⟨m root 511 :: l, ?_⟩
  rw [descend, hidx]
  refine (if_pos hpres).trans ?_
  change (descend pageFormat m (vpath addr) k d (frameOf (m root 511))).map _ = _
  rw [htarget, hpath]
  rfl

/-- A walk to a kernel address passes `P`, and below it the tables of `P`. -/
theorem Walked.kernel {m : Nat → Nat → Word} {addr pdpt pd pt : Nat}
    (hlink : KernelLinked P trees m) (hroot : (4, root) ∈ trees) (haddr : KernelAddr addr)
    (hw : Walked m root addr pdpt pd pt) : pdpt = P ∧
      (∃ l, descend pageFormat m (kpath addr) 2 1 P = some (l, pd)) ∧
      ∃ l, descend pageFormat m (kpath addr) 1 2 P = some (l, pt) := by
  obtain ⟨⟨l3, h3⟩, ⟨l2, h2⟩, l1, h1⟩ := hw
  obtain ⟨l3', h3'⟩ := descend_kernel (k := 3) (d := 0) hlink hroot haddr rfl h3
  obtain ⟨-, rfl⟩ := Prod.mk.inj (Option.some.inj h3')
  exact ⟨rfl, descend_kernel hlink hroot haddr rfl h2, descend_kernel hlink hroot haddr rfl h1⟩

theorem walked_kernel {m : Nat → Nat → Word} {addr pd pt : Nat} {l2 l1 : List Word}
    (hlink : KernelLinked P trees m) (hroot : (4, root) ∈ trees) (haddr : KernelAddr addr)
    (h2 : descend pageFormat m (kpath addr) 2 1 P = some (l2, pd))
    (h1 : descend pageFormat m (kpath addr) 1 2 P = some (l1, pt)) :
    Walked m root addr P pd pt :=
  ⟨descend_shared (k := 3) (d := 0) (l := []) hlink hroot haddr rfl rfl,
    descend_shared hlink hroot haddr rfl h2, descend_shared hlink hroot haddr rfl h1⟩

theorem Counted.root_inUse (hc : Counted s held trees) {h r : Nat} (hr : (h + 1, r) ∈ trees) :
    s.memoryBitmap r ≠ 0 ∨ s.usablePageCount ≤ r := by
  by_cases hlt : r < s.usablePageCount
  · left
    have hpos := Nat.lt_of_lt_of_le (tableCount_self_pos pageFormat s.mem h r)
      (tableCount_le_forestTables pageFormat s.mem hr r)
    rw [hc.exact r hlt]
    omega
  · exact Or.inr (Nat.le_of_not_lt hlt)

theorem Counted.table_ne_root {k d t t₀ : Nat}
    (hc : Counted s held ((k + 1 + d, t) :: rest)) (hp : InRange p)
    (hd : descend pageFormat s.mem p (k + 1) d t = some (l, t₀)) :
    ∀ r, (4, r) ∈ rest → t₀ ≠ r := by
  rintro r hr rfl
  have hnot := not_table_of_rest pageFormat hp hc.tables_le_one hd hr
  have hself := tableCount_self_pos pageFormat s.mem 3 t₀
  exact Nat.ne_of_gt hself hnot

/-- Finding or building a table changes the word it is linked from, and no other word of
a frame in use. -/
theorem tableAt_mem {t i c : Nat} (h : tableAt s t i = .ok (c, s')) {g j : Nat}
    (hg : s.memoryBitmap g ≠ 0 ∨ s.usablePageCount ≤ g) (hout : ¬ (g = t ∧ j = i)) :
    s'.mem g j = s.mem g j := by
  rw [tableAt] at h
  split at h
  · obtain ⟨-, rfl⟩ := Prod.mk.inj (Except.ok.inj h)
    rfl
  · rw [bind_ok] at h
    obtain ⟨⟨f, s₁⟩, halloc, h⟩ := h
    obtain ⟨hlt, hfree, rfl⟩ := allocatePhysicalPage_ok halloc
    dsimp only at h
    split at h
    · cases h
    obtain ⟨-, rfl⟩ := Prod.mk.inj (Except.ok.inj h)
    have hne : g ≠ f := by
      rintro rfl
      rcases hg with hg | hg
      · exact hg hfree
      · omega
    rw [PhysMem.writeWord_mem, write, if_neg hout]
    simp [PhysMem.zeroFrame, hne]

theorem cachedTable_mem {changed : Bool} {cached t i c : Nat}
    (h : cachedTable changed cached s t i = .ok (c, s')) {g j : Nat}
    (hg : s.memoryBitmap g ≠ 0 ∨ s.usablePageCount ≤ g) (hout : ¬ (g = t ∧ j = i)) :
    s'.mem g j = s.mem g j := by
  rw [cachedTable] at h
  split at h
  · exact tableAt_mem h hg hout
  · obtain ⟨-, rfl⟩ := Prod.mk.inj (Except.ok.inj h)
    rfl

/-- Building a table that is linked from no root's last word. -/
theorem KernelLinked.cachedTable {changed : Bool} {cached t i c : Nat}
    (h : KernelLinked P trees s.mem) (hc : Counted s held rest)
    (hsub : ∀ r, (4, r) ∈ trees → (4, r) ∈ rest)
    (hout : (4, t) ∈ trees → i ≠ 511)
    (hok : GlitchedOS.cachedTable changed cached s t i = .ok (c, s')) :
    KernelLinked P trees s'.mem := by
  refine h.congr fun r hr => cachedTable_mem hok (hc.root_inUse (hsub r hr)) ?_
  rintro ⟨rfl, hi⟩
  exact hout hr hi.symm

/-- What writing the leaf word of the path `p` does to the tree of height `h` at `t` and
to the others. -/
structure PageSet (h t : Nat) (rest : List (Nat × Nat)) (p : Nat → Nat) (e : Option Word)
    (m m' : Nat → Nat → Word) : Prop where
  self : ∀ q, (∀ j, 0 < j → j ≤ h → q j = p j) → leafWord pageFormat m' q h t = e
  other : ∀ q, InRange q → ¬ (∀ j, 0 < j → j ≤ h → q j = p j) →
    leafWord pageFormat m' q h t = leafWord pageFormat m q h t
  elsewhere : ∀ x ∈ rest, ∀ q, InRange q →
    leafWord pageFormat m' q x.1 x.2 = leafWord pageFormat m q x.1 x.2
  tables : ∀ f, forestTables pageFormat m' ((h, t) :: rest) f =
    forestTables pageFormat m ((h, t) :: rest) f
  data : ∀ f, forestTables pageFormat m ((h, t) :: rest) f = 0 → m' f = m f

theorem Counted.pageSet {d t pt : Nat}
    (hc : Counted s held ((0 + 1 + d, t) :: rest)) (hp : InRange p)
    (hd : descend pageFormat s.mem p 1 d t = some (l, pt)) (e : Word) :
    PageSet (0 + 1 + d) t rest p (if present e then some e else none) s.mem
      (write s.mem pt (p 1) e) := by
  obtain ⟨hself, hother, hrest⟩ := leafWord_setLeaf pageFormat hp e hc.tables_le_one hd
  refine ⟨hself, fun q hq hne => hother q hq ?_, hrest,
    hc.forestTables_setLeaf hp hd e, fun f hf => ?_⟩
  · simpa using hne
  · have hne : f ≠ pt := by
      rintro rfl
      have hpos : 0 < tableCount pageFormat s.mem (0 + 1 + d) t f :=
        Nat.lt_of_lt_of_le (tableCount_self_pos pageFormat s.mem 0 f)
          (tableCount_descend_le pageFormat hp hd f)
      rw [forestTables_cons] at hf
      omega
    funext i
    exact write_frame_ne _ _ _ hne i

theorem LeafSet.pageSet {e : Option Word}
    (h : LeafSet root rest p e s s') : PageSet 4 root rest p e s.mem s'.mem :=
  ⟨h.self, h.other, h.elsewhere, h.tables, h.data⟩

theorem Radix.Separate.leafCongr {m m' : Nat → Nat → Word} (h : Separate pageFormat m trees)
    (hsame : ∀ x ∈ trees, ∀ q, InRange q →
      leafWord pageFormat m' q x.1 x.2 = leafWord pageFormat m q x.1 x.2) :
    Separate pageFormat m' trees := by
  intro x hx
  refine (h x hx).mono pageFormat fun p e hp hword => ⟨e, ?_, rfl⟩
  rw [← hsame x hx p hp, hword]

theorem Radix.Separate.clear {m m' : Nat → Nat → Word} {h t : Nat}
    (hs : Separate pageFormat m ((h, t) :: rest)) (hset : PageSet h t rest p none m m') :
    Separate pageFormat m' ((h, t) :: rest) := by
  intro x hx
  rcases List.mem_cons.mp hx with rfl | hx
  · refine (hs _ List.mem_cons_self).mono pageFormat fun q e hq hword => ⟨e, ?_, rfl⟩
    by_cases hpath : ∀ j, 0 < j → j ≤ h → q j = p j
    · rw [hset.self q hpath] at hword
      cases hword
    · rw [← hset.other q hq hpath, hword]
  · refine (hs x (List.mem_cons_of_mem _ hx)).mono pageFormat fun q e hq hword => ⟨e, ?_, rfl⟩
    rw [← hset.elsewhere x hx q hq, hword]

/-- A page mapped to a frame that its tree does not map elsewhere. -/
theorem Radix.Separate.set {m m' : Nat → Nat → Word} {h t : Nat} {e : Word}
    (hs : Separate pageFormat m ((h, t) :: rest)) (hset : PageSet h t rest p (some e) m m')
    (hfresh : ∀ q e', InRange q → ¬ (∀ j, 0 < j → j ≤ h → q j = p j) →
      leafWord pageFormat m q h t = some e' → frameOf e' ≠ frameOf e) :
    Separate pageFormat m' ((h, t) :: rest) := by
  intro x hx
  rcases List.mem_cons.mp hx with rfl | hx
  · exact (hs _ List.mem_cons_self).set pageFormat hset.self hset.other hfresh
  · refine (hs x (List.mem_cons_of_mem _ hx)).mono pageFormat fun q e hq hword => ⟨e, ?_, rfl⟩
    rw [← hset.elsewhere x hx q hq, hword]

/-- A word outside the lower half of a root that stays present and keeps its target. -/
theorem Counted.grows_upper {i : Nat} {e : Word}
    (hc : Counted s held trees) (hroot : (4, root) ∈ trees) (hi : 256 ≤ i)
    (hshape : SameShape pageFormat s.mem (write s.mem root i e)) :
    Counted (s.writeWord root i e) held trees ∧ Grows trees s (s.writeWord root i e) := by
  have hperm := List.perm_cons_erase hroot
  have hview := leafWord_write_outside pageFormat e (h := 3) hi (hc.perm hperm).tables_le_one
  refine ⟨hc.sameShape hshape rfl rfl, rfl, rfl, fun x hx q hq => ?_, fun _ _ => rfl,
    fun f _ _ => ?_, fun f _ _ hf => ?_⟩
  · exact hview x (hperm.mem_iff.mp hx) q hq
  · rw [forestTables, forestTables, forestWeight, forestWeight]
    simp only [PhysMem.writeWord_mem, weight_sameShape pageFormat hshape]
  · have hne : f ≠ root := by
      rintro rfl
      have hself := Nat.lt_of_lt_of_le (tableCount_self_pos pageFormat s.mem 3 f)
        (tableCount_le_forestTables pageFormat s.mem hroot f)
      omega
    funext j
    exact write_frame_ne _ _ _ hne j

section Round

variable {addr : Nat} {c : Cursor}

/-- The three levels of the walk of a round at a kernel address. -/
theorem cachedTable_kernel {pdpt pd pt : Nat} {sa sb sc : PhysMem}
    (hc : Counted s held ((3, P) :: rest)) (hlink : KernelLinked P rest s.mem)
    (hroot : (4, root) ∈ rest) (haddr : KernelAddr addr) (hv : c.Valid s.mem root addr)
    (ha : cachedTable c.pml4Changed c.pdpt s root (vpath addr 4) = .ok (pdpt, sa))
    (hb : cachedTable c.pdptChanged c.pd sa pdpt (vpath addr 3) = .ok (pd, sb))
    (hcc : cachedTable c.pdChanged c.pt sb pd (vpath addr 2) = .ok (pt, sc)) :
    Counted sc held ((3, P) :: rest) ∧ Grows ((3, P) :: rest) s sc ∧
      KernelLinked P rest sc.mem ∧ Walked sc.mem root addr pdpt pd pt := by
  have hp := kpath_inRange addr
  obtain ⟨hpres, htarget⟩ := hlink root hroot
  have hfirst : pdpt = P ∧ sa = s := by
    rw [cachedTable] at ha
    split at ha
    · rw [tableAt, vpath_kernel haddr, if_pos hpres, htarget] at ha
      obtain ⟨rfl, rfl⟩ := Prod.mk.inj (Except.ok.inj ha)
      exact ⟨rfl, rfl⟩
    · rename_i hsame
      obtain ⟨rfl, rfl⟩ := Prod.mk.inj (Except.ok.inj ha)
      obtain ⟨l, hd⟩ := hv.pdpt (by simpa using hsame)
      obtain ⟨l', hd'⟩ := descend_kernel (k := 3) (d := 0) hlink hroot haddr rfl hd
      obtain ⟨-, rfl⟩ := Prod.mk.inj (Option.some.inj hd')
      exact ⟨rfl, rfl⟩
  obtain ⟨rfl, rfl⟩ := hfirst
  rw [← kpath_of_lt (by decide)] at hb hcc
  obtain ⟨hcb, hgb, -, hsb, l2, hd2⟩ := cachedTable_spec (k := 1) (d := 0) (l := []) hc hp
    rfl (fun hsame => by
      obtain ⟨l, hd⟩ := hv.pd hsame
      exact descend_kernel hlink hroot haddr rfl hd) hb
  have hlinkb := hlink.cachedTable hc (fun r hr => List.mem_cons_of_mem _ hr)
    (fun hmem => absurd rfl (hc.table_ne_root (k := 2) (d := 0) (l := []) hp rfl _ hmem)) hb
  obtain ⟨hcc', hgc, hac, -, l1, hd1⟩ := cachedTable_spec (k := 0) (d := 1) hcb hp hd2
    (fun hsame => by
      rw [hsb (hv.pdOrder hsame)]
      obtain ⟨l, hd⟩ := hv.pt hsame
      exact descend_kernel hlink hroot haddr rfl hd) hcc
  have hlinkc := hlinkb.cachedTable hcb (fun r hr => List.mem_cons_of_mem _ hr)
    (fun hmem => absurd rfl (hcb.table_ne_root (k := 1) (d := 1) hp hd2 _ hmem)) hcc
  have hd2' : descend pageFormat sc.mem (kpath addr) 2 1 pdpt = some (l2, pd) :=
    (hac 0 1 rfl).trans hd2
  exact ⟨hcc', hgb.trans hgc, hlinkc, walked_kernel hlinkc hroot haddr hd2' hd1⟩

theorem orWord_kernel {pd pt : Nat} (hc : Counted s held ((3, P) :: rest))
    (hlink : KernelLinked P rest s.mem) (hroot : (4, root) ∈ rest) (haddr : KernelAddr addr)
    (hw : Walked s.mem root addr P pd pt) :
    let s' := orWord (orWord (orWord s root (vpath addr 4) higherLevelFlags)
      P (vpath addr 3) higherLevelFlags) pd (vpath addr 2) higherLevelFlags
    Counted s' held ((3, P) :: rest) ∧ Grows ((3, P) :: rest) s s' ∧
      KernelLinked P rest s'.mem ∧ Walked s'.mem root addr P pd pt := by
  have hp := kpath_inRange addr
  intro s'
  have hshape4 : SameShape pageFormat s.mem
      (orWord s root (vpath addr 4) higherLevelFlags).mem :=
    sameShape_write pageFormat (higherLevelFlags_or hw.links.1.1).1
      (higherLevelFlags_or hw.links.1.1).2
  obtain ⟨hc4, hg4⟩ := hc.grows_upper (List.mem_cons_of_mem _ hroot)
    (by rw [vpath_kernel haddr]; decide) hshape4
  have hlink4 := hlink.sameShape hshape4
  have hw4 := hw.sameShape hshape4
  have h3 : vpath addr 3 = kpath addr 3 := (kpath_of_lt (by decide)).symm
  have h2 : vpath addr 2 = kpath addr 2 := (kpath_of_lt (by decide)).symm
  have hl4 := hw4.links
  obtain ⟨hsh3, hc3, hg3⟩ := orWord_spec (k := 1) (d := 0) (l := []) hc4 hp rfl
    (h3 ▸ hl4.2.1.1)
  have hw3 := hw4.sameShape hsh3
  have hlink3 := hlink4.sameShape hsh3
  obtain ⟨-, ⟨l2, hd2⟩, -⟩ := hw3.kernel hlink3 hroot haddr
  obtain ⟨hsh2, hc2, hg2⟩ := orWord_spec (k := 0) (d := 1) hc3 hp hd2
    (h2 ▸ hw3.links.2.2.1)
  change Counted (orWord (orWord (orWord s root (vpath addr 4) higherLevelFlags)
    P (vpath addr 3) higherLevelFlags) pd (vpath addr 2) higherLevelFlags) held _ ∧ _
  simp only [s', h3, h2]
  exact ⟨hc2, (hg4.trans hg3).trans hg2, hlink3.sameShape hsh2, hw3.sameShape hsh2⟩

end Round

section KernelRound

variable {addr : Nat} {c c' : Cursor} {leaf : LeafSource}

/-- A round maps one page of a memory in which tables may have been built. -/
theorem kernelRound_ok (hc : Counted s held ((3, P) :: rest))
    (hlink : KernelLinked P rest s.mem) (hroot : (4, root) ∈ rest) (haddr : KernelAddr addr)
    (hv : c.Valid s.mem root addr)
    (h : allocRound leaf root addr c s = .ok (c', s')) :
    ∃ s₁ e f s₂ pd pt, Counted s₁ held ((3, P) :: rest) ∧ Grows ((3, P) :: rest) s s₁ ∧
      KernelLinked P rest s₁.mem ∧ Walked s₁.mem root addr P pd pt ∧
      present (s₁.mem pt (vpath addr 1)) = false ∧ leaf addr s₁ = .ok (e, f, s₂) ∧
      c' = Cursor.advance { c with pdpt := P, pd := pd, pt := pt } ∧
      s' = (s₂.writeWord pt (vpath addr 1) e).incCount f := by
  simp only [allocRound, hv.idx, bind_ok] at h
  obtain ⟨⟨pdpt, sa⟩, ha, ⟨pd, sb⟩, hb, ⟨pt, sc⟩, hcc, h⟩ := h
  obtain ⟨hcw, hgw, hlinkw, hw⟩ := cachedTable_kernel hc hlink hroot haddr hv ha hb hcc
  obtain ⟨rfl, -, -⟩ := hw.kernel hlinkw hroot haddr
  obtain ⟨hco, hgo, hlinko, hwo⟩ := orWord_kernel hcw hlinkw hroot haddr hw
  dsimp only at h
  split at h
  · cases h
  rename_i habs
  rw [bind_ok] at h
  obtain ⟨⟨e, f, s₂⟩, hleaf, h⟩ := h
  obtain ⟨rfl, rfl⟩ := Prod.mk.inj (Except.ok.inj h)
  exact ⟨_, e, f, s₂, pd, pt, hco, hgw.trans hgo, hlinko, hwo,
    Bool.not_eq_true _ ▸ habs, hleaf, by rw [hv.idx], rfl⟩

/-- A page of the first tree, of any height, mapped to a frame with room in its count. -/
theorem Counted.mapPage {d t pt f : Nat} {e : Word}
    {s₁ : PhysMem} (hc : Counted s held ((0 + 1 + d, t) :: rest)) (hp : InRange p)
    (hd : descend pageFormat s.mem p 1 d t = some (l, pt))
    (habs : present (s.mem pt (p 1)) = false) (hleaf : LeafOk s e f s₁) :
    let s' := (s₁.writeWord pt (p 1) e).incCount f
    Counted s' held ((0 + 1 + d, t) :: rest) ∧
      PageSet (0 + 1 + d) t rest p (some e) s.mem s'.mem ∧
      ∀ g, s'.memoryBitmap g = s.memoryBitmap g + if f = g then 1 else 0 := by
  intro s'
  obtain ⟨n, rfl⟩ := hleaf.hint
  have hbitmap : ∀ g, s'.memoryBitmap g = s.memoryBitmap g + if f = g then 1 else 0 :=
    PhysMem.incCount_memoryBitmap _ hleaf.room
  refine ⟨hc.setLeaf hp hd e rfl rfl ?_ ?_, ?_, hbitmap⟩
  · intro g _
    rw [hbitmap g, habs, hleaf.pres, hleaf.target]
    rfl
  · intro _
    exact hleaf.target ▸ hleaf.lt
  · have hset := hc.pageSet hp hd e
    rwa [if_pos hleaf.pres] at hset

/-- Writing the leaf word of a kernel address keeps the walk to it. -/
theorem Walked.writeKernel {pd pt : Nat} (hw : Walked s.mem root addr P pd pt)
    (hc : Counted s held ((3, P) :: rest)) (hlink : KernelLinked P rest s.mem)
    (hroot : (4, root) ∈ rest) (haddr : KernelAddr addr) (e : Word) :
    KernelLinked P rest (write s.mem pt (vpath addr 1) e) ∧
      Walked (write s.mem pt (vpath addr 1) e) root addr P pd pt := by
  have hp := kpath_inRange addr
  obtain ⟨-, ⟨l2, hd2⟩, l1, hd1⟩ := hw.kernel hlink hroot haddr
  have hlink' : KernelLinked P rest (write s.mem pt (vpath addr 1) e) :=
    hlink.write e fun hmem => absurd rfl (hc.table_ne_root (k := 0) (d := 2) hp hd1 _ hmem)
  have hex := hc.exclusive (k := 0) (d := 2)
  have hd2' := (descend_write_above pageFormat hp (j := 1) (d := 1) (kpath addr 1) e hex
    hd1).trans hd2
  have hd1' := descend_write pageFormat hp (kpath addr 1) e hex hd1
  exact ⟨hlink', walked_kernel hlink' hroot haddr hd2' hd1'⟩

/-- The index increments are those of the next address of the same half. -/
theorem Cursor.advance_idx_kernel (haddr : KernelAddr addr) (hnext : addr + pageSize < 2 ^ 64)
    (hidx : c.idx = getPageEntry addr) : c.advance.idx = getPageEntry (addr + pageSize) := by
  obtain ⟨hlo, -⟩ := haddr
  simp only [pageSize] at hnext
  exact Cursor.advance_idx_of (by omega) hidx

end KernelRound

theorem KernelLinked.releaseIfEmpty (h : KernelLinked P trees s.mem) (table : Nat) {parent i : Nat}
    (hout : (4, parent) ∈ trees → i ≠ 511) :
    KernelLinked P trees (GlitchedOS.releaseIfEmpty s table parent i).mem := by
  rw [GlitchedOS.releaseIfEmpty]
  split
  · rw [PhysMem.writeWord_mem, PhysMem.decCount_mem]
    exact h.write _ hout
  · exact h

/-- A page of the first tree, of any height, unmapped with the count of its frame. -/
theorem Counted.unmapPage {d t pt : Nat}
    (hc : Counted s held ((0 + 1 + d, t) :: rest)) (hp : InRange p)
    (hd : descend pageFormat s.mem p 1 d t = some (l, pt))
    (hpres : present (s.mem pt (p 1)) = true) :
    let s' := (s.writeWord pt (p 1) 0#64).decCount (frameOf (s.mem pt (p 1)))
    Counted s' held ((0 + 1 + d, t) :: rest) ∧
      PageSet (0 + 1 + d) t rest p none s.mem s'.mem := by
  intro s'
  set e := s.mem pt (p 1)
  have hmem : s'.mem = write s.mem pt (p 1) 0#64 := by
    rw [PhysMem.decCount_mem]
    rfl
  have hword : leafWord pageFormat s.mem p (0 + 1 + d) t = some e := by
    rw [leafWord_of_descend pageFormat (k := 0) hd, leafWord_one]
    exact if_pos hpres
  have hfirst : (0 + 1 + d, t) ∈ (0 + 1 + d, t) :: rest := List.mem_cons_self
  have hpos : 0 < forestLeaves pageFormat s.mem ((0 + 1 + d, t) :: rest) (frameOf e) :=
    Nat.lt_of_lt_of_le (leafCount_pos_of_leafWord pageFormat hp hword)
      (leafCount_le_forestLeaves pageFormat s.mem hfirst _)
  have hused : s.memoryBitmap (frameOf e) ≠ 0 := by
    rw [hc.exact _ (hc.leaf_lt _ hpos)]
    omega
  have hbitmap : ∀ f, s'.memoryBitmap f =
      s.memoryBitmap f - if frameOf e = f then 1 else 0 := fun f =>
    PhysMem.decCount_memoryBitmap _ _ f
  refine ⟨hc.setLeaf hp hd 0#64 hmem (PhysMem.decCount_usablePageCount _ _) ?_ nofun, ?_⟩
  · intro f _
    rw [hbitmap f, if_pos hpres, present_zero, if_neg Bool.false_ne_true]
    by_cases hf : frameOf e = f
    · subst hf
      rw [if_pos rfl]
      omega
    · rw [if_neg hf]
      omega
  · rw [hmem]
    exact hc.pageSet hp hd 0#64

/-- `free_page` at a kernel address, while some other kernel page stays mapped. -/
theorem freePage_kernel {page a : Nat} (hc : Counted s held ((3, P) :: rest))
    (hlink : KernelLinked P rest s.mem) (hroot : (4, root) ∈ rest) (haddr : KernelAddr page)
    (hpte : kpte s P page ≠ none) (ha : KernelAddr a)
    (hother : a / pageSize ≠ page / pageSize) (hstays : kpte s P a ≠ none) :
    Counted (freePage s root page).2 held ((3, P) :: rest) ∧
      KernelLinked P rest (freePage s root page).2.mem ∧
      ∃ s₁, PageSet 3 P rest (kpath page) none s.mem s₁.mem ∧
        Shrinks ((3, P) :: rest) s₁ (freePage s root page).2 := by
  have hp := kpath_inRange page
  obtain ⟨e, hpte⟩ := Option.ne_none_iff_exists'.mp hpte
  rw [← pte_kernel hlink hroot haddr] at hpte
  obtain ⟨pdpt, pd, pt, hw, hpres, -⟩ := walked_of_pte hpte
  obtain ⟨rfl, -, l1, hd1⟩ := hw.kernel hlink hroot haddr
  rw [freePage_mapped (by have := haddr.1; omega) hw hpres]
  obtain ⟨hc₁, hset⟩ := hc.unmapPage (d := 2) hp hd1 hpres
  obtain ⟨hlink₁, hw₁⟩ := hw.writeKernel hc hlink hroot haddr 0#64
  set s₁ := (s.writeWord pt (vpath page 1) 0#64).decCount
    (frameOf (s.mem pt (vpath page 1))) with hs₁
  have hmem₁ : s₁.mem = write s.mem pt (vpath page 1) 0#64 := by
    rw [hs₁, PhysMem.decCount_mem]
    rfl
  rw [← hmem₁] at hlink₁ hw₁
  obtain ⟨-, ⟨l2, hd2⟩, l1, hd1⟩ := hw₁.kernel hlink₁ hroot haddr
  rw [← kpath_of_lt (by decide : 2 < 4), ← kpath_of_lt (by decide : 3 < 4)]
  obtain ⟨hc₂, hsh₂, habove₂⟩ := releaseIfEmpty_spec (k := 0) (d := 1) (by decide) hc₁ hp
    hd2 hd1
  have hlink₂ := hlink₁.releaseIfEmpty pt (i := kpath page 2)
    fun hmem => absurd rfl (hc₁.table_ne_root (k := 1) (d := 1) hp hd2 _ hmem)
  obtain ⟨hc₃, hsh₃, -⟩ := releaseIfEmpty_spec (k := 1) (d := 0) (l := []) (by decide) hc₂
    hp rfl ((habove₂ 0 1 rfl).trans hd2)
  have hlink₃ := hlink₂.releaseIfEmpty pd (i := kpath page 3)
    fun hmem => absurd rfl (hc₂.table_ne_root (k := 2) (d := 0) (l := []) hp rfl _ hmem)
  set s₃ := releaseIfEmpty (releaseIfEmpty s₁ pt pd (kpath page 2)) pd pdpt (kpath page 3)
  -- the PDPT still leads to the page of `a`
  have hfull : ¬ tableEmpty s₃ pdpt = true := by
    intro hempty
    apply hstays
    have hleft : ¬ ∀ j, 0 < j → j ≤ 3 → kpath a j = kpath page j := fun hsame =>
      hother ((kpath_samePage haddr ha).mp hsame)
    have hidx : kpath a 3 < 512 := by
      rw [kpath_of_lt (by decide)]
      exact Nat.mod_lt _ (by decide)
    have hnone : leafWord pageFormat s₃.mem (kpath a) 3 pdpt = none :=
      leafWord_of_empty pageFormat (h := 2) (tableEmpty_spec hempty hidx)
    rw [kpte, ← hset.other _ (kpath_inRange a) hleft]
    exact ((hsh₂.trans hsh₃).leaf _ List.mem_cons_self _ (kpath_inRange a)).symm.trans hnone
  have hskip : releaseIfEmpty s₃ pdpt root (vpath page 4) = s₃ := if_neg hfull
  rw [hskip]
  exact ⟨hc₃, hlink₃, s₁, hset, hsh₂.trans hsh₃⟩

end GlitchedOS
