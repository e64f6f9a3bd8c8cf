/-
`free_region` undoes `alloc_region`.  Building a region keeps every link of the address
space and freeing one adds none, so the trees before and after are both part of the tree
in between; neither has an empty table, and they map the same pages.
-/
import GlitchedOS.Lib.RadixLinks
import GlitchedOS.Paging.Ranges
import GlitchedOS.Paging.Sound

namespace GlitchedOS

open Radix

variable {s s' s'' : PhysMem} {held : Nat → Nat} {rest : List (Nat × Nat)} {root : Nat}

/-! ### Frames of other owners -/

/-- The tables of the other address spaces and the frames of the kernel. -/
def Foreign (held : Nat → Nat) (rest : List (Nat × Nat)) (s : PhysMem) (f : Nat) : Prop :=
  0 < held f ∨ 0 < forestTables pageFormat s.mem rest f

theorem Counted.not_foreign {h t f : Nat} (hc : Counted s held ((h, t) :: rest))
    (hf : 0 < tableCount pageFormat s.mem h t f) : ¬ Foreign held rest s f := by
  have honce := hc.once f
  rw [forestTables_cons] at honce
  rintro (hheld | htable)
  · omega
  · omega

theorem Counted.foreign_used {h t f : Nat} (hc : Counted s held ((h, t) :: rest))
    (hf : Foreign held rest s f) (hlt : f < s.usablePageCount) : s.memoryBitmap f ≠ 0 := by
  rw [hc.exact f hlt, forestTables_cons]
  rcases hf with hheld | htable
  · omega
  · omega

/-- The frames of other owners, and the upper half of the root, are as they were. -/
structure SameElsewhere (root : Nat) (rest : List (Nat × Nat)) (held : Nat → Nat)
    (s s' : PhysMem) : Prop where
  foreign : ∀ f, Foreign held rest s f → s'.mem f = s.mem f
  upper : ∀ i, 256 ≤ i → s'.mem root i = s.mem root i

namespace SameElsewhere

theorem refl (root : Nat) (rest : List (Nat × Nat)) (held : Nat → Nat) (s : PhysMem) :
    SameElsewhere root rest held s s := ⟨fun _ _ => rfl, fun _ _ => rfl⟩

theorem weight (h : SameElsewhere root rest held s s') (α β : Nat → Nat) :
    forestWeight pageFormat s'.mem α β rest = forestWeight pageFormat s.mem α β rest :=
  forestWeight_congr pageFormat α β fun f hf i => congrFun (h.foreign f (Or.inr hf)) i

theorem foreign_iff (h : SameElsewhere root rest held s s') (f : Nat) :
    Foreign held rest s' f ↔ Foreign held rest s f := by
  rw [Foreign, Foreign, forestTables, h.weight]
  exact Iff.rfl

theorem trans (h : SameElsewhere root rest held s s') (h' : SameElsewhere root rest held s' s'') :
    SameElsewhere root rest held s s'' where
  foreign f hf := (h'.foreign f ((h.foreign_iff f).mpr hf)).trans (h.foreign f hf)
  upper i hi := (h'.upper i hi).trans (h.upper i hi)

end SameElsewhere

theorem Counted.sameElsewhere_write {t i : Nat} {e : Word}
    (hc : Counted s held ((4, root) :: rest)) (ht : 0 < tableCount pageFormat s.mem 4 root t)
    (hi : t = root → i < 256) (hmem : s'.mem = write s.mem t i e) :
    SameElsewhere root rest held s s' where
  foreign f hf := by
    have hne : f ≠ t := fun heq => hc.not_foreign ht (heq ▸ hf)
    funext j
    rw [hmem, write_frame_ne _ _ _ hne]
  upper j hj := by
    rw [hmem, write, if_neg]
    rintro ⟨rfl, rfl⟩
    exact absurd (hi rfl) (Nat.not_lt.mpr hj)

/-! ### Tables on a walk -/

section Walk

variable {addr pdpt pd pt : Nat}

theorem Walked.tables (hw : Walked s.mem root addr pdpt pd pt) (haddr : addr < lowerHalf) :
    0 < tableCount pageFormat s.mem 4 root pdpt ∧
      0 < tableCount pageFormat s.mem 4 root pd ∧
      0 < tableCount pageFormat s.mem 4 root pt := by
  have hp := vpath_inRange haddr
  obtain ⟨⟨l3, hd3⟩, ⟨l2, hd2⟩, l1, hd1⟩ := hw
  refine ⟨?_, ?_, ?_⟩
  · exact Nat.lt_of_lt_of_le (tableCount_self_pos pageFormat s.mem 2 pdpt)
      (tableCount_descend_le pageFormat hp hd3 pdpt)
  · exact Nat.lt_of_lt_of_le (tableCount_self_pos pageFormat s.mem 1 pd)
      (tableCount_descend_le pageFormat hp hd2 pd)
  · exact Nat.lt_of_lt_of_le (tableCount_self_pos pageFormat s.mem 0 pt)
      (tableCount_descend_le pageFormat hp hd1 pt)

theorem Walked.ne_root (hw : Walked s.mem root addr pdpt pd pt)
    (hc : Counted s held ((4, root) :: rest)) (haddr : addr < lowerHalf) :
    pdpt ≠ root ∧ pd ≠ root ∧ pt ≠ root := by
  have hp := vpath_inRange haddr
  obtain ⟨⟨l3, hd3⟩, ⟨l2, hd2⟩, l1, hd1⟩ := hw
  exact ⟨hc.below_ne_root (k := 2) (d := 0) hp hd3 root List.mem_cons_self,
    hc.below_ne_root (k := 1) (d := 1) hp hd2 root List.mem_cons_self,
    hc.below_ne_root (k := 0) (d := 2) hp hd1 root List.mem_cons_self⟩

end Walk

/-! ### Building tables -/

/-- Finding or building a table keeps the links there are; the table it returns is the only
one that may be new. -/
theorem tableAt_keeps {k d t t₀ c : Nat} {l : List Word} {p : Nat → Nat}
    (hc : Counted s held ((k + 1 + 1 + d, t) :: rest)) (hp : InRange p)
    (hd : descend pageFormat s.mem p (k + 1 + 1) d t = some (l, t₀))
    (h : tableAt s t₀ (p (k + 1 + 1)) = .ok (c, s')) :
    (∀ f, 0 < forestTables pageFormat s.mem ((k + 1 + 1 + d, t) :: rest) f →
      Keeps pageFormat s.mem s'.mem f) ∧
    (∀ f, f ≠ t₀ → f ≠ c → s'.mem f = s.mem f) ∧
    (∀ f, Foreign held rest s f → s'.mem f = s.mem f) ∧
    ∀ f, f ≠ c → tableCount pageFormat s'.mem (k + 1 + 1 + d) t f ≤
      tableCount pageFormat s.mem (k + 1 + 1 + d) t f := by
  obtain ⟨hc', -, -, hold, -⟩ := tableAt_spec hc hp hd h
  have ht₀ : 0 < tableCount pageFormat s.mem (k + 1 + 1 + d) t t₀ :=
    Nat.lt_of_lt_of_le (tableCount_self_pos pageFormat s.mem (k + 1) t₀)
      (tableCount_descend_le pageFormat hp hd t₀)
  rw [tableAt] at h
  split at h
  · obtain ⟨-, rfl⟩ := Prod.mk.inj (Except.ok.inj h)
    exact ⟨fun _ _ => Keeps.refl pageFormat _ _, fun _ _ _ => rfl, fun _ _ => rfl,
      fun _ _ => Nat.le_refl _⟩
  rename_i habs
  rw [bind_ok] at h
  obtain ⟨⟨f₀, s₁⟩, halloc, h⟩ := h
  obtain ⟨hlt, hfree, hs₁⟩ := allocatePhysicalPage_ok halloc
  obtain ⟨-, hnotable, -⟩ := hc.fresh hlt hfree
  obtain ⟨-, -, hother⟩ := hc.grows_allocatePhysicalPage halloc
  obtain ⟨hpres, htarget⟩ := link_word (Nat.lt_of_lt_of_le hlt s.usable_le)
  dsimp only at h
  split at h
  · cases h
  set e := (frameAddress f₀ &&& pageMask) ||| higherLevelFlags
  have hzz : s₁.zeroFrame f₀ = s₁ := by
    rw [hs₁, PhysMem.zeroFrame_zeroFrame]
  rw [hzz, PhysMem.writeWord_mem, write_same, htarget] at h
  obtain ⟨rfl, rfl⟩ := Prod.mk.inj (Except.ok.inj h)
  have hkeep : ∀ f, f ≠ t₀ → f ≠ f₀ → write s₁.mem t₀ (p (k + 1 + 1)) e f = s.mem f := by
    intro f hne hnew
    funext j
    rw [write_frame_ne _ _ _ hne, hother f hnew]
  have hforeign : ∀ f, Foreign held rest s f →
      write s₁.mem t₀ (p (k + 1 + 1)) e f = s.mem f := by
    intro f hf
    refine hkeep f (fun heq => hc.not_foreign ht₀ (heq ▸ hf)) ?_
    rintro rfl
    exact hc.foreign_used hf hlt hfree
  refine ⟨fun f hf => ?_, hkeep, hforeign, fun f hnew => ?_⟩
  · have hnew : f ≠ f₀ := by
      rintro rfl
      omega
    refine (Keeps.of_eq pageFormat (hother f hnew)).trans pageFormat
      (keeps_write pageFormat (fun hlink => ?_) f)
    have hne : t₀ ≠ f₀ := by
      rintro rfl
      rw [forestTables_cons] at hnotable
      omega
    rw [hother t₀ hne] at hlink
    exact absurd hlink habs
  · have hrest : forestTables pageFormat (write s₁.mem t₀ (p (k + 1 + 1)) e) rest f =
        forestTables pageFormat s.mem rest f :=
      forestWeight_congr pageFormat _ _ fun g hg i => congrFun (hforeign g (Or.inr hg)) i
    by_cases hused : s.memoryBitmap f ≠ 0 ∨ s.usablePageCount ≤ f
    · have hsame := hold f hused
      rw [forestTables_cons, forestTables_cons, PhysMem.writeWord_mem, hrest] at hsame
      exact Nat.le_of_eq (Nat.add_right_cancel hsame)
    · -- a frame that is still free is no table
      rw [not_or, not_not, Nat.not_le] at hused
      have hfree' : s₁.memoryBitmap f = 0 := by
        rw [hs₁]
        change (PhysMem.incCount _ f₀).memoryBitmap f = 0
        rw [PhysMem.incCount_memoryBitmap _ (by simp [hfree]), if_neg (Ne.symm hnew)]
        exact hused.1
      have husable : s₁.usablePageCount = s.usablePageCount := by
        rw [hs₁]
        rfl
      obtain ⟨-, hnone, -⟩ := hc'.fresh (f := f) (husable ▸ hused.2) hfree'
      rw [forestTables_cons] at hnone
      omega

/-- A level of the walk keeps what there is, whether the table is found, built or cached. -/
theorem cachedTable_keeps {k d t t₀ c cached : Nat} {l : List Word} {p : Nat → Nat}
    {changed : Bool} (hc : Counted s held ((k + 1 + 1 + d, t) :: rest)) (hp : InRange p)
    (hd : descend pageFormat s.mem p (k + 1 + 1) d t = some (l, t₀))
    (h : cachedTable changed cached s t₀ (p (k + 1 + 1)) = .ok (c, s')) :
    (∀ f, 0 < forestTables pageFormat s.mem ((k + 1 + 1 + d, t) :: rest) f →
      Keeps pageFormat s.mem s'.mem f) ∧
    (∀ f, f ≠ t₀ → f ≠ c → s'.mem f = s.mem f) ∧
    (∀ f, Foreign held rest s f → s'.mem f = s.mem f) ∧
    ∀ f, f ≠ c → tableCount pageFormat s'.mem (k + 1 + 1 + d) t f ≤
      tableCount pageFormat s.mem (k + 1 + 1 + d) t f := by
  cases changed with
  | true => exact tableAt_keeps hc hp hd h
  | false =>
      obtain ⟨-, rfl⟩ := Prod.mk.inj (Except.ok.inj h)
      exact ⟨fun _ _ => Keeps.refl pageFormat _ _, fun _ _ _ => rfl, fun _ _ => rfl,
        fun _ _ => Nat.le_refl _⟩

/-- What building tables and mapping pages leaves of the tree `root` and of the rest. -/
structure Extends (root : Nat) (rest : List (Nat × Nat)) (held : Nat → Nat)
    (s s' : PhysMem) : Prop where
  elsewhere : SameElsewhere root rest held s s'
  keeps : ∀ f, 0 < tableCount pageFormat s.mem 4 root f → Keeps pageFormat s.mem s'.mem f

theorem Extends.refl (root : Nat) (rest : List (Nat × Nat)) (held : Nat → Nat) (s : PhysMem) :
    Extends root rest held s s := ⟨.refl .., fun _ _ => Keeps.refl pageFormat _ _⟩

theorem Extends.trans (h : Extends root rest held s s') (h' : Extends root rest held s' s'') :
    Extends root rest held s s'' where
  elsewhere := h.elsewhere.trans h'.elsewhere
  keeps f hf := (h.keeps f hf).trans pageFormat
    (h'.keeps f (Nat.lt_of_lt_of_le hf (tableCount_le_of_keeps pageFormat h.keeps f)))

theorem Extends.write {t i : Nat} {e : Word} (hc : Counted s held ((4, root) :: rest))
    (ht : 0 < tableCount pageFormat s.mem 4 root t) (hi : t = root → i < 256)
    (hkeep : present (s.mem t i) = true → present e = true ∧ frameOf e = frameOf (s.mem t i))
    (hmem : s'.mem = write s.mem t i e) : Extends root rest held s s' where
  elsewhere := hc.sameElsewhere_write ht hi hmem
  keeps f _ := by
    rw [hmem]
    exact keeps_write pageFormat hkeep f

/-- Each table below the root, but for `x`, has a present word. -/
def NoEmptyBut (s : PhysMem) (root x : Nat) : Prop :=
  ∀ f, 0 < tableCount pageFormat s.mem 4 root f → f ≠ root → f ≠ x →
    ∃ i < 512, present (s.mem f i) = true

/-- No table behind the lower half of the root is empty. -/
def NoEmptyTables (s : PhysMem) (root : Nat) : Prop :=
  ∀ f, 0 < tableCount pageFormat s.mem 4 root f → f ≠ root →
    ∃ i < 512, present (s.mem f i) = true

section Round

variable {addr pdpt pd pt : Nat}

theorem cachedTable_extends {c : Cursor} {sa sb sc : PhysMem}
    (hc : Counted s held ((4, root) :: rest)) (haddr : addr < lowerHalf)
    (hv : c.Valid s.mem root addr)
    (ha : cachedTable c.pml4Changed c.pdpt s root (vpath addr 4) = .ok (pdpt, sa))
    (hb : cachedTable c.pdptChanged c.pd sa pdpt (vpath addr 3) = .ok (pd, sb))
    (hcc : cachedTable c.pdChanged c.pt sb pd (vpath addr 2) = .ok (pt, sc)) :
    Extends root rest held s sc ∧
      (∀ f, f ≠ root → f ≠ pdpt → f ≠ pd → f ≠ pt → sc.mem f = s.mem f) ∧
      ∀ f, f ≠ pdpt → f ≠ pd → f ≠ pt →
        tableCount pageFormat sc.mem 4 root f ≤ tableCount pageFormat s.mem 4 root f := by
  have hp := vpath_inRange haddr
  have htree : ∀ {st : PhysMem} {f : Nat}, 0 < tableCount pageFormat st.mem 4 root f →
      0 < forestTables pageFormat st.mem ((4, root) :: rest) f := by
    intro st f hf
    rw [forestTables_cons]
    omega
  obtain ⟨hca, -, -, hsa, l3, hd3⟩ := cachedTable_spec (k := 2) (d := 0) (l := []) hc hp rfl
    hv.pdpt ha
  obtain ⟨hcb, -, hab, hsb, l2, hd2⟩ := cachedTable_spec (k := 1) (d := 1) hca hp hd3
    (fun hfalse => by
      rw [hsa (hv.pdptOrder hfalse)]
      exact hv.pd hfalse) hb
  obtain ⟨hc₃, -, hac, -, l1, hd1⟩ := cachedTable_spec (k := 0) (d := 2) hcb hp hd2
    (fun hfalse => by
      have hpd := hv.pdOrder hfalse
      rw [hsb hpd, hsa (hv.pdptOrder hpd)]
      exact hv.pt hfalse) hcc
  have hw : Walked sc.mem root addr pdpt pd pt :=
    ⟨⟨l3, by rw [hac 1 1 rfl, hab 0 1 rfl, hd3]⟩, ⟨l2, by rw [hac 0 2 rfl, hd2]⟩, l1, hd1⟩
  obtain ⟨hpdpt, hpd, hpt⟩ := hw.ne_root hc₃ haddr
  obtain ⟨hkeepa, hmema, hfora, htaba⟩ := cachedTable_keeps (k := 2) (d := 0) (l := []) hc hp
    rfl ha
  obtain ⟨hkeepb, hmemb, hforb, htabb⟩ := cachedTable_keeps (k := 1) (d := 1) hca hp hd3 hb
  obtain ⟨hkeepc, hmemc, hforc, htabc⟩ := cachedTable_keeps (k := 0) (d := 2) hcb hp hd2 hcc
  have ha' : Extends root rest held s sa := by
    refine ⟨⟨hfora, fun i hi => ?_⟩, fun f hf => hkeepa f (htree hf)⟩
    refine cachedTable_mem ha (hc.root_inUse (h := 3) List.mem_cons_self) ?_
    rintro ⟨-, rfl⟩
    exact absurd (hp 4) (Nat.not_lt.mpr hi)
  have hb' : Extends root rest held sa sb := ⟨⟨hforb, fun i _ =>
    congrFun (hmemb root hpdpt.symm hpd.symm) i⟩, fun f hf => hkeepb f (htree hf)⟩
  have hc' : Extends root rest held sb sc := ⟨⟨hforc, fun i _ =>
    congrFun (hmemc root hpd.symm hpt.symm) i⟩, fun f hf => hkeepc f (htree hf)⟩
  refine ⟨(ha'.trans hb').trans hc', fun f hr h3 h2 h1 => ?_, fun f h3 h2 h1 => ?_⟩
  · rw [hmemc f h2 h1, hmemb f h3 h2, hmema f hr h3]
  · exact (htabc f h1).trans ((htabb f h2).trans (htaba f h3))

theorem orWord_extends (hc : Counted s held ((4, root) :: rest)) (haddr : addr < lowerHalf)
    (hw : Walked s.mem root addr pdpt pd pt) :
    Extends root rest held s (orWord (orWord (orWord s root (vpath addr 4) higherLevelFlags)
      pdpt (vpath addr 3) higherLevelFlags) pd (vpath addr 2) higherLevelFlags) := by
  obtain ⟨hpdpt, hpd, -⟩ := hw.tables haddr
  obtain ⟨hne3, hne2, -⟩ := hw.ne_root hc haddr
  have hroot := tableCount_self_pos pageFormat s.mem 3 root
  refine ⟨⟨fun f hf => ?_, fun i hi => ?_⟩, fun f _ i hpres => ?_⟩
  · have hne : ∀ t, 0 < tableCount pageFormat s.mem 4 root t → f ≠ t := fun t ht heq =>
      hc.not_foreign ht (heq ▸ hf)
    funext i
    simp only [orWord, PhysMem.writeWord_mem]
    rw [write_frame_ne _ _ _ (hne pd hpd), write_frame_ne _ _ _ (hne pdpt hpdpt),
      write_frame_ne _ _ _ (hne root hroot)]
  · have hout : ¬ (root = root ∧ i = vpath addr 4) := by
      rintro ⟨-, rfl⟩
      exact absurd (vpath_inRange haddr 4) (Nat.not_lt.mpr hi)
    simp only [orWord, PhysMem.writeWord_mem]
    rw [write_frame_ne _ _ _ hne2.symm, write_frame_ne _ _ _ hne3.symm, Radix.write, if_neg hout]
  · obtain ⟨hsame, htarget⟩ := orWord_sameShape hw f i
    exact ⟨hsame.trans hpres, htarget⟩

/-- What a round has built before it maps its page. -/
theorem allocRound_extends {leaf : LeafSource} {c c' : Cursor}
    (hc : Counted s held ((4, root) :: rest)) (haddr : addr < lowerHalf)
    (hv : c.Valid s.mem root addr) (h : allocRound leaf root addr c s = .ok (c', s')) :
    ∃ s₁ e f s₂ pdpt pd pt, Counted s₁ held ((4, root) :: rest) ∧
      Walked s₁.mem root addr pdpt pd pt ∧ present (s₁.mem pt (vpath addr 1)) = false ∧
      leaf addr s₁ = .ok (e, f, s₂) ∧ s' = (s₂.writeWord pt (vpath addr 1) e).incCount f ∧
      Extends root rest held s s₁ ∧
      (∀ g, g ≠ root → g ≠ pdpt → g ≠ pd → g ≠ pt → s₁.mem g = s.mem g) ∧
      ∀ g, g ≠ pdpt → g ≠ pd → g ≠ pt →
        tableCount pageFormat s₁.mem 4 root g ≤ tableCount pageFormat s.mem 4 root g := by
  simp only [allocRound, hv.idx, bind_ok] at h
  obtain ⟨⟨pdpt, sa⟩, ha, ⟨pd, sb⟩, hb, ⟨pt, sc⟩, hcc, h⟩ := h
  obtain ⟨hextends, hmem, htables⟩ := cachedTable_extends hc haddr hv ha hb hcc
  obtain ⟨hcw, -, hw⟩ := cachedTable_walk hc haddr hv ha hb hcc
  obtain ⟨hco, -, hwo⟩ := orWord_walk hcw haddr hw
  have hor := orWord_extends hcw haddr hw
  have hshape := orWord_sameShape hw
  dsimp only at h
  split at h
  · cases h
  rename_i habs
  rw [bind_ok] at h
  obtain ⟨⟨e, f, s₂⟩, hleaf, h⟩ := h
  obtain ⟨-, rfl⟩ := Prod.mk.inj (Except.ok.inj h)
  refine ⟨_, e, f, s₂, pdpt, pd, pt, hco, hwo, Bool.not_eq_true _ ▸ habs, hleaf, rfl,
    hextends.trans hor, fun g hr h3 h2 h1 => ?_, fun g h3 h2 h1 => ?_⟩
  · rw [← hmem g hr h3 h2 h1]
    funext i
    simp only [orWord, PhysMem.writeWord_mem]
    rw [write_frame_ne _ _ _ h2, write_frame_ne _ _ _ h3, write_frame_ne _ _ _ hr]
  · refine Nat.le_trans (Nat.le_of_eq ?_) (htables g h3 h2 h1)
    exact weight_sameShape pageFormat hshape _ _ 4 root

/-- A round of `alloc_region` keeps the links there are and leaves no table empty. -/
theorem regionRound_extends {c c' : Cursor} {flags : Flags}
    (hc : Counted s held ((4, root) :: rest)) (haddr : addr < lowerHalf)
    (hv : c.Valid s.mem root addr)
    (h : allocRound (regionLeaf flags) root addr c s = .ok (c', s')) :
    Extends root rest held s s' ∧ (NoEmptyTables s root → NoEmptyTables s' root) := by
  obtain ⟨s₁, e, f, s₂, pdpt, pd, pt, hc₁, hw, habs, hleaf, rfl, hextends, hmem, htables⟩ :=
    allocRound_extends hc haddr hv h
  obtain ⟨hok, -, -, hsame⟩ := regionLeaf_ok hleaf
  obtain ⟨-, -, hpt⟩ := hw.tables haddr
  obtain ⟨-, -, hne⟩ := hw.ne_root hc₁ haddr
  have hmem' : ((s₂.writeWord pt (vpath addr 1) e).incCount f).mem =
      Radix.write s₁.mem pt (vpath addr 1) e := congrArg (Radix.write · pt (vpath addr 1) e) hsame
  have hlast : Extends root rest held s₁ ((s₂.writeWord pt (vpath addr 1) e).incCount f) :=
    .write hc₁ hpt (fun heq => absurd heq hne)
      (fun hpres => absurd (habs.symm.trans hpres) Bool.false_ne_true) hmem'
  obtain ⟨hc', hset, -, hw'⟩ := hc₁.mapLeaf haddr hw habs hok
  refine ⟨hextends.trans hlast, fun hfull g hg hroot => ?_⟩
  have hp := vpath_inRange haddr
  obtain ⟨-, ⟨h3, -⟩, h2, -⟩ := hw'.links
  by_cases hg3 : g = pdpt
  · exact ⟨_, hp 3, hg3 ▸ h3⟩
  by_cases hg2 : g = pd
  · exact ⟨_, hp 2, hg2 ▸ h2⟩
  by_cases hg1 : g = pt
  · refine ⟨_, hp 1, ?_⟩
    rw [hmem', hg1, write_same]
    exact hok.pres
  -- a table that was there, with the words it had
  have hcount : tableCount pageFormat ((s₂.writeWord pt (vpath addr 1) e).incCount f).mem 4 root g
      = tableCount pageFormat s₁.mem 4 root g := by
    have htotal := hset.tables g
    rw [forestTables_cons, forestTables_cons, forestTables, hlast.elsewhere.weight] at htotal
    exact Nat.add_right_cancel htotal
  rw [hcount] at hg
  obtain ⟨i, hi, hpres⟩ := hfull g (Nat.lt_of_lt_of_le hg (htables g hg3 hg2 hg1)) hroot
  refine ⟨i, hi, ?_⟩
  rw [hmem', write_frame_ne _ _ _ hg1, hmem g hroot hg3 hg2 hg1]
  exact hpres

end Round

/-- The rounds of `alloc_region`. -/
theorem regionRounds_extends {vaddr : Nat} {flags : Flags}
    (hc : Counted s held ((4, root) :: rest)) :
    ∀ {n : Nat} {c : Cursor} {s' : PhysMem},
      (∀ k < n, vaddr + k * pageSize < lowerHalf) →
      loopRounds (regionRound root vaddr flags) n (Cursor.start vaddr, s) = .ok (c, s') →
      Extends root rest held s s' ∧ (NoEmptyTables s root → NoEmptyTables s' root) := by
  intro n
  induction n with
  | zero =>
      intro c s' _ h
      obtain ⟨-, rfl⟩ := Prod.mk.inj (Except.ok.inj h)
      exact ⟨.refl .., id⟩
  | succ n ih =>
      intro c s' hfit h
      rw [loopRounds, bind_ok] at h
      obtain ⟨⟨c₀, s₀⟩, hbefore, h⟩ := h
      have hfit' : ∀ k < n, vaddr + k * pageSize < lowerHalf :=
        fun k hk => hfit k (Nat.lt_succ_of_lt hk)
      obtain ⟨hextends, hfull⟩ := ih hfit' hbefore
      have hrule : Counted s₀ held ((4, root) :: rest) ∧ True ∧
          c₀.Valid s₀.mem root (vaddr + n * pageSize) := by
        refine allocRounds_rule (fun _ _ => True) hc (fun _ _ _ _ _ _ => trivial) n hfit' ?_
          trivial c₀ s₀ hbefore
        intro k st e f st₁ _ _ _ _ hleaf
        exact ⟨(regionLeaf_ok hleaf).1, fun _ _ _ _ => trivial⟩
      obtain ⟨hc₀, -, hv₀⟩ := hrule
      obtain ⟨hround, hfull'⟩ := regionRound_extends hc₀ (hfit n (Nat.lt_succ_self n)) hv₀ h
      exact ⟨hextends.trans hround, fun h => hfull' (hfull h)⟩

theorem allocRegion64_extends {vaddr size : Nat} {flags : Flags}
    (hc : Counted s held ((4, root) :: rest))
    (hfit : ∀ k < regionRounds vaddr size, vaddr + k * pageSize < lowerHalf)
    (h : allocRegion64 s root vaddr size flags = .ok s') :
    Extends root rest held s s' ∧ (NoEmptyTables s root → NoEmptyTables s' root) := by
  rw [allocRegion64, bind_ok] at h
  obtain ⟨⟨c, s₁⟩, hloop, h⟩ := h
  obtain rfl := Except.ok.inj h
  exact regionRounds_extends hc hfit hloop

/-! ### Releasing pages -/

/-- What releasing pages leaves of the tree `root` and of the rest. -/
structure Reduces (root : Nat) (rest : List (Nat × Nat)) (held : Nat → Nat)
    (s s' : PhysMem) : Prop where
  elsewhere : SameElsewhere root rest held s s'
  keeps : ∀ f, Keeps pageFormat s'.mem s.mem f

namespace Reduces

theorem refl (root : Nat) (rest : List (Nat × Nat)) (held : Nat → Nat) (s : PhysMem) :
    Reduces root rest held s s := ⟨.refl .., fun _ => Keeps.refl pageFormat _ _⟩

theorem trans (h : Reduces root rest held s s') (h' : Reduces root rest held s' s'') :
    Reduces root rest held s s'' where
  elsewhere := h.elsewhere.trans h'.elsewhere
  keeps f := (h'.keeps f).trans pageFormat (h.keeps f)

theorem clear {t i : Nat} (hc : Counted s held ((4, root) :: rest))
    (ht : 0 < tableCount pageFormat s.mem 4 root t) (hi : t = root → i < 256)
    (hmem : s'.mem = write s.mem t i 0#64) : Reduces root rest held s s' where
  elsewhere := hc.sameElsewhere_write ht hi hmem
  keeps f := by
    rw [hmem]
    exact keeps_of_clear pageFormat s.mem t i (e := 0#64) present_zero f

theorem tables_le (h : Reduces root rest held s s') (f : Nat) :
    tableCount pageFormat s'.mem 4 root f ≤ tableCount pageFormat s.mem 4 root f :=
  tableCount_le_of_keeps pageFormat (fun g _ => h.keeps g) f

end Reduces

/-- A clean-up of `free_page`: the next table up may be empty now, and no other. -/
theorem releaseIfEmpty_reduces {k d parent table : Nat} {l l' : List Word} {p : Nat → Nat}
    (hheight : k + 1 + 1 + d = 4) (hc : Counted s held ((4, root) :: rest)) (hp : InRange p)
    (hd : descend pageFormat s.mem p (k + 1 + 1) d root = some (l, parent))
    (hd' : descend pageFormat s.mem p (k + 1) (d + 1) root = some (l', table))
    (hi : parent = root → p (k + 1 + 1) < 256) :
    Reduces root rest held s (releaseIfEmpty s table parent (p (k + 1 + 1))) ∧
      (NoEmptyBut s root table →
        NoEmptyBut (releaseIfEmpty s table parent (p (k + 1 + 1))) root parent) := by
  have hc' : Counted s held ((k + 1 + 1 + d, root) :: rest) := hheight.symm ▸ hc
  have hparent : 0 < tableCount pageFormat s.mem 4 root parent := by
    rw [← hheight]
    exact Nat.lt_of_lt_of_le (tableCount_self_pos pageFormat s.mem (k + 1) parent)
      (tableCount_descend_le pageFormat hp hd parent)
  obtain ⟨_, _, hlast, hpres, htarget⟩ := descend_parent pageFormat hd'
  rw [hd] at hlast
  obtain ⟨-, rfl⟩ := Prod.mk.inj (Option.some.inj hlast)
  by_cases hempty : tableEmpty s table = true
  · have hmem : (releaseIfEmpty s table parent (p (k + 1 + 1))).mem =
        write s.mem parent (p (k + 1 + 1)) 0#64 := by
      rw [releaseIfEmpty, if_pos hempty, PhysMem.writeWord_mem, PhysMem.decCount_mem]
    have hreduces : Reduces root rest held s (releaseIfEmpty s table parent (p (k + 1 + 1))) :=
      .clear hc hparent hi hmem
    refine ⟨hreduces, fun hfull f hf hroot hne => ?_⟩
    have hgone : f ≠ table := by
      rintro rfl
      -- the table is a tree of its own now, and no table occurs twice
      have hunlink : forestTables pageFormat (write s.mem parent (p (k + 1 + 1)) 0#64)
          ((k + 1, f) :: (k + 1 + 1 + d, root) :: rest) f =
            forestTables pageFormat s.mem ((k + 1 + 1 + d, root) :: rest) f := by
        have hun := forestWeight_unlink pageFormat (fun x => if x = f then 1 else 0)
          (fun _ => 0) hp hc'.tables_le_one hd hpres (e := 0#64) present_zero
        rwa [htarget] at hun
      have honce := hc'.tables_le_one f
      have hself := tableCount_self_pos pageFormat (write s.mem parent (p (k + 1 + 1)) 0#64) k f
      rw [hmem, ← hheight] at hf
      rw [← hunlink, forestTables_cons, forestTables_cons] at honce
      omega
    obtain ⟨i, hi, hpres⟩ :=
      hfull f (Nat.lt_of_lt_of_le hf (hreduces.tables_le f)) hroot hgone
    refine ⟨i, hi, ?_⟩
    rw [hmem, write_frame_ne _ _ _ hne]
    exact hpres
  · have hsame : releaseIfEmpty s table parent (p (k + 1 + 1)) = s := if_neg hempty
    rw [hsame]
    refine ⟨.refl .., fun hfull f hf hroot _ => ?_⟩
    by_cases heq : f = table
    · rw [heq]
      rw [tableEmpty, List.all_eq_true] at hempty
      simp only [List.mem_range, not_forall] at hempty
      obtain ⟨i, hi, hpres⟩ := hempty
      exact ⟨i, hi, by simpa using hpres⟩
    · exact hfull f hf hroot heq

/-- `free_page` adds no link and leaves no table empty. -/
theorem freePage_reduces {page : Nat} (hc : Counted s held ((4, root) :: rest))
    (haddr : page < lowerHalf) :
    Reduces root rest held s (freePage s root page).2 ∧
      (NoEmptyTables s root → NoEmptyTables (freePage s root page).2 root) := by
  by_cases hpage : page = 0
  · rw [freePage, if_pos hpage]
    exact ⟨.refl .., id⟩
  cases hpte : pte s root page with
  | none =>
      rw [freePage_unmapped hpte]
      exact ⟨.refl .., id⟩
  | some e =>
      have hp := vpath_inRange haddr
      obtain ⟨pdpt, pd, pt, s₁, s₂, s₃, hsteps, -⟩ := freePage_steps hc hpage haddr hpte
      obtain ⟨-, -, hpt⟩ := hsteps.walk.tables haddr
      obtain ⟨hne3, hne2, hne1⟩ := hsteps.walk.ne_root hc haddr
      obtain ⟨l1, hd1⟩ := hsteps.walk₁.pt
      obtain ⟨l2, hd2⟩ := hsteps.walk₁.pd
      obtain ⟨l2', hd2₂⟩ := hsteps.pd₂
      obtain ⟨l3, hd3₂⟩ := hsteps.pdpt₂
      obtain ⟨l3', hd3₃⟩ := hsteps.pdpt₃
      have hunmap : Reduces root rest held s s₁ :=
        .clear hc hpt (fun heq => absurd heq hne1) hsteps.mem₁
      obtain ⟨hr₂, hfull₂⟩ := releaseIfEmpty_reduces (k := 0) rfl hsteps.counted₁ hp hd2 hd1
        fun heq => absurd heq hne2
      obtain ⟨hr₃, hfull₃⟩ := releaseIfEmpty_reduces (k := 1) rfl hsteps.counted₂ hp hd3₂ hd2₂
        fun heq => absurd heq hne3
      obtain ⟨hr₄, hfull₄⟩ := releaseIfEmpty_reduces (k := 2) (l := []) rfl hsteps.counted₃ hp
        rfl hd3₃ fun _ => hp 4
      rw [← hsteps.freePt] at hr₂ hfull₂
      rw [← hsteps.freePd] at hr₃ hfull₃
      rw [← hsteps.freePdpt] at hr₄ hfull₄
      refine ⟨((hunmap.trans hr₂).trans hr₃).trans hr₄, fun hfull f hf hroot => ?_⟩
      refine hfull₄ (hfull₃ (hfull₂ fun g hg hgroot hgpt => ?_)) f hf hroot hroot
      obtain ⟨i, hi, hpres⟩ := hfull g (Nat.lt_of_lt_of_le hg (hunmap.tables_le g)) hgroot
      refine ⟨i, hi, ?_⟩
      rw [hsteps.mem₁, write_frame_ne _ _ _ hgpt]
      exact hpres

theorem freeRegion64_reduces {vaddr size : Nat} (hc : Counted s held ((4, root) :: rest))
    (hfit : ∀ k < regionRounds vaddr size, vaddr + k * pageSize < lowerHalf) :
    Reduces root rest held s (freeRegion64 s root vaddr size) ∧
      (NoEmptyTables s root → NoEmptyTables (freeRegion64 s root vaddr size) root) := by
  rw [freeRegion64]
  have hrule : Counted (loopPure (fun k s => (freePage s root (vaddr + k * pageSize)).2)
      (regionRounds vaddr size) s) held ((4, root) :: rest) ∧
      Reduces root rest held s (loopPure (fun k s => (freePage s root (vaddr + k * pageSize)).2)
        (regionRounds vaddr size) s) ∧
      (NoEmptyTables s root → NoEmptyTables (loopPure
        (fun k s => (freePage s root (vaddr + k * pageSize)).2) (regionRounds vaddr size) s)
        root) := by
    refine loopPure_induct (P := fun _ st => Counted st held ((4, root) :: rest) ∧
      Reduces root rest held s st ∧ (NoEmptyTables s root → NoEmptyTables st root))
      ⟨hc, .refl .., id⟩ ?_
    rintro k hk st ⟨hst, hreduces, hfull⟩
    obtain ⟨hround, hfull'⟩ := freePage_reduces hst (hfit k hk)
    exact ⟨freePage_counted hst (hfit k hk), hreduces.trans hround, fun h => hfull' (hfull h)⟩
  exact hrule.2

/-! ### The round trip -/

theorem exists_vpath {p : Nat → Nat} (hp : InRange p) :
    ∃ a < lowerHalf, ∀ j, 0 < j → j ≤ 4 → p j = vpath a j := by
  have h1 : p 1 < 512 := hp 1
  have h2 : p 2 < 512 := hp 2
  have h3 : p 3 < 512 := hp 3
  have h4 : p 4 < 256 := hp 4
  refine ⟨p 4 * 2 ^ 39 + p 3 * 2 ^ 30 + p 2 * 2 ^ 21 + p 1 * 2 ^ 12, ?_, fun j hlo hhi => ?_⟩
  · rw [lowerHalf]
    omega
  · obtain rfl | rfl | rfl | rfl : j = 1 ∨ j = 2 ∨ j = 3 ∨ j = 4 := by omega
    all_goals
      simp only [vpath, getPageEntry]
      omega

/-- A tree is told by its pages when it has no empty table. -/
theorem NoEmptyTables.full (hfull : NoEmptyTables s root)
    (hc : Counted s held ((4, root) :: rest)) {i : Nat} (hi : i < pageFormat.width 4)
    (hpres : pageFormat.present (s.mem root i) = true) :
    Full pageFormat 512 s.mem 3 (pageFormat.target (s.mem root i)) := by
  intro f hf
  refine hfull f (Nat.lt_of_lt_of_le hf (tableCount_below pageFormat hi hpres f)) ?_
  have hex : Exclusive pageFormat s.mem (3 + 1) root := hc.exclusive (k := 3) (d := 0)
  refine (hex.ne_of_below pageFormat hi ?_).symm
  rwa [entryTableCount, entryWeight, if_pos hpres]

/-- Two trees that are part of one tree, without empty tables and with the same pages. -/
theorem sameTree {s₁ : PhysMem} (hc : Counted s held ((4, root) :: rest))
    (hc' : Counted s' held ((4, root) :: rest)) (hfull : NoEmptyTables s root)
    (hfull' : NoEmptyTables s' root) (hextends : Extends root rest held s s₁)
    (hreduces : Reduces root rest held s₁ s')
    (hpte : ∀ a < lowerHalf, pte s' root a = pte s root a) (α β : Nat → Nat) :
    weight pageFormat s'.mem α β 4 root = weight pageFormat s.mem α β 4 root := by
  have hwidth : ∀ k, 0 < pageFormat.width k := by
    intro k
    change 0 < if k = 4 then 256 else 512
    split <;> decide
  refine weight_eq_of_leafWord (w := 512) hwidth α β
    (fun k hlo hhi => if_neg (by omega)) hextends.keeps (fun f _ => hreduces.keeps f)
    (fun i hi hpres => hfull.full hc hi hpres) (fun i hi hpres => hfull'.full hc' hi hpres)
    fun p hp => ?_
  obtain ⟨a, ha, hpath⟩ := exists_vpath hp
  rw [leafWord_path_congr pageFormat hpath, leafWord_path_congr pageFormat hpath]
  exact hpte a ha

/-- The tables behind the upper half of the root have other owners. -/
def UpperForeign (held : Nat → Nat) (rest : List (Nat × Nat)) (s : PhysMem) (root : Nat) : Prop :=
  ∀ p k d l c, 256 ≤ p 4 → k + 1 + (d + 1) = 4 →
    descend pageFormat s.mem p (k + 1) (d + 1) root = some (l, c) → Foreign held rest s c

theorem SameElsewhere.pte_upper (h : SameElsewhere root rest held s s')
    (hupper : UpperForeign held rest s root) {a : Nat} (ha : 256 ≤ vpath a 4) :
    pte s' root a = pte s root a := by
  refine leafWord_congr_along pageFormat fun k d l c hheight hd => ?_
  cases d with
  | zero =>
      obtain ⟨-, rfl⟩ := Prod.mk.inj (Option.some.inj hd)
      obtain rfl : k = 3 := by omega
      exact h.upper _ ha
  | succ d => exact congrFun (h.foreign c (hupper _ k d l c ha hheight hd)) _

theorem freeRegion64_usable (s : PhysMem) (root vaddr size : Nat) :
    (freeRegion64 s root vaddr size).usablePageCount = s.usablePageCount := by
  rw [freeRegion64]
  refine loopPure_induct (P := fun _ (st : PhysMem) =>
    st.usablePageCount = s.usablePageCount) rfl fun k _ st ih => ?_
  exact (freePage_globals st root (vaddr + k * pageSize)).1.trans ih

/-- `alloc_region` followed by `free_region`: every count, the translation of every address
and the tables of the address space are what they were. -/
theorem free_region_undoes_alloc_region {vaddr size : Nat} {flags : Flags}
    (hc : Counted s held ((4, root) :: rest)) (hfull : NoEmptyTables s root)
    (hupper : UpperForeign held rest s root) (hvaddr : pageSize ≤ vaddr)
    (hfit : ∀ k < regionRounds vaddr size, vaddr + k * pageSize < lowerHalf)
    (h : allocRegion64 s root vaddr size flags = .ok s') :
    (∀ f < s.usablePageCount,
      (freeRegion64 s' root vaddr size).memoryBitmap f = s.memoryBitmap f) ∧
    (∀ a, Canonical a → pte (freeRegion64 s' root vaddr size) root a = pte s root a) ∧
    ∀ f, tableCount pageFormat (freeRegion64 s' root vaddr size).mem 4 root f =
      tableCount pageFormat s.mem 4 root f := by
  obtain ⟨hc', hbuilt⟩ := allocRegion64_built hc hfit h
  obtain ⟨hextends, hfull'⟩ := allocRegion64_extends hc hfit h
  obtain ⟨hc'', hfreed⟩ := freeRegion64_pte hc' (by rw [pageSize] at hvaddr; omega) hfit
  obtain ⟨hreduces, hfull''⟩ := freeRegion64_reduces hc' hfit
  set t := freeRegion64 s' root vaddr size
  have hlower : ∀ a < lowerHalf, pte t root a = pte s root a := by
    intro a ha
    rw [hfreed a ha]
    split
    · rename_i hin
      exact (hbuilt.mapped a ha hin).1.symm
    · rename_i hout
      exact hbuilt.other a ha hout
  have hsame := sameTree hc hc'' hfull (hfull'' (hfull' hfull)) hextends hreduces hlower
  have helse := hextends.elsewhere.trans hreduces.elsewhere
  have husable : t.usablePageCount = s.usablePageCount :=
    (freeRegion64_usable s' root vaddr size).trans hbuilt.usable
  refine ⟨fun f hf => ?_, fun a ha => ?_, fun f => hsame _ _⟩
  · rw [hc''.exact f (husable ▸ hf), hc.exact f hf, forestTables_cons, forestTables_cons,
      forestLeaves_cons, forestLeaves_cons, tableCount, leafCount, hsame, hsame, forestTables,
      forestLeaves, helse.weight, helse.weight]
    rfl
  · rcases ha with ha | ⟨hlo, hhi⟩
    · exact hlower a ha
    · refine helse.pte_upper hupper ?_
      simp only [vpath, getPageEntry, lowerHalf] at hlo ⊢
      omega

/-- Two pages at `0x400000` of a machine with 64 frames, mapped and freed. -/
theorem free_region_undoes_alloc_region_first :
    let s := emptyMachine 64 (by decide)
    ∃ s', allocRegion64 s 1 0x400000 0x2000 ⟨flagsUser ||| flagsRw, by decide⟩ = .ok s' ∧
      (∀ f < 64, (freeRegion64 s' 1 0x400000 0x2000).memoryBitmap f = s.memoryBitmap f) ∧
      ∀ a, Canonical a → pte (freeRegion64 s' 1 0x400000 0x2000) 1 a = none := by
  intro s
  have hempty : EmptyLowerHalf s 1 [] emptyHeld := emptyMachine_empty (by decide) (by decide)
  have habsent : ∀ t i, pageFormat.present (s.mem t i) = false := by
    intro t i
    have hword : s.mem t i = 0#64 := rfl
    rw [hword]
    exact present_zero
  have hfit : ∀ k < regionRounds 0x400000 0x2000, 0x400000 + k * pageSize < lowerHalf := by
    have hrounds : regionRounds 0x400000 0x2000 = 2 := by decide
    rw [hrounds, pageSize, lowerHalf]
    intro k hk
    omega
  have hfull : NoEmptyTables s 1 := by
    intro f hf hne
    rw [tableCount, weight_of_empty pageFormat _ _ fun i _ => habsent 1 i, if_neg hne.symm] at hf
    cases hf
  have hupper : UpperForeign emptyHeld [] s 1 := by
    intro p k d l c _ _ hd
    obtain ⟨_, hpres, -⟩ := descend_succ_some pageFormat hd
    rw [habsent] at hpres
    cases hpres
  obtain ⟨s', hok⟩ := allocRegion64_progress ⟨flagsUser ||| flagsRw, by decide⟩ hempty.counted
    hempty.unmapped hfit (emptyMachine_roomy _) (by decide)
  obtain ⟨hbitmap, hpte, -⟩ := free_region_undoes_alloc_region hempty.counted hfull hupper
    (by decide) hfit hok
  refine ⟨s', hok, hbitmap, fun a ha => (hpte a ha).trans ?_⟩
  exact leafWord_of_empty pageFormat (habsent 1 _)

end GlitchedOS
