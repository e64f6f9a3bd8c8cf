/-
Both halves of an address space as one tree.  The format looks at all 512 words of a
PML4; of the state it is asked that no frame is a table twice and that tables are in use,
and nothing of counts.  A round of `alloc_region` then does at any canonical address what
it does in the lower half.
-/
import GlitchedOS.Paging.Region

namespace GlitchedOS

open Radix

variable {s s' s'' : PhysMem} {root h t : Nat}

/-- The four-level format of a whole address space. -/
def wholeFormat : Radix.Format Nat Word where
  present := present
  target := frameOf
  width _ := 512

/-- The two formats read words alike; a walk looks at no width. -/
theorem descend_whole (m : Nat → Nat → Word) (p : Nat → Nat) (k : Nat) :
    ∀ d t, descend wholeFormat m p k d t = descend pageFormat m p k d t
  | 0, _ => rfl
  | d + 1, t => by
      rw [descend, descend, descend_whole]
      rfl

theorem trail_whole (m : Nat → Nat → Word) (p : Nat → Nat) :
    ∀ h t, trail wholeFormat m p h t = trail pageFormat m p h t
  | 0, _ => rfl
  | h + 1, t => by
      rw [trail, trail, trail_whole]
      rfl

theorem pte_whole (s : PhysMem) (root addr : Nat) :
    pte s root addr = leafWord wholeFormat s.mem (vpath addr) 4 root := by
  rw [pte, leafWord, leafWord, trail_whole]

/-- A path whose indices are below 512. -/
def WholePath (p : Nat → Nat) : Prop := ∀ k, p k < wholeFormat.width k

theorem vpath_wholePath (addr : Nat) : WholePath (vpath addr) := by
  intro k
  match k with
  | 0 => exact (by decide : 0 < 512)
  | 1 => exact Nat.mod_lt _ (by decide)
  | 2 => exact Nat.mod_lt _ (by decide)
  | 3 => exact Nat.mod_lt _ (by decide)
  | 4 => exact Nat.mod_lt _ (by decide)
  | k + 5 => exact (by decide : 0 < 512)

/-- No frame is a table twice, and the tables are in use. -/
structure TableTree (s : PhysMem) (h t : Nat) : Prop where
  once : ∀ f, tableCount wholeFormat s.mem h t f ≤ 1
  used : ∀ f < s.usablePageCount, 0 < tableCount wholeFormat s.mem h t f →
    s.memoryBitmap f ≠ 0

/-- What building tables leaves alone; a new table is a frame that was free. -/
structure Builds (h t : Nat) (s s' : PhysMem) : Prop where
  usable : s'.usablePageCount = s.usablePageCount
  leaf : ∀ q, WholePath q →
    leafWord wholeFormat s'.mem q h t = leafWord wholeFormat s.mem q h t
  bitmap : ∀ f, s.memoryBitmap f ≠ 0 → s'.memoryBitmap f = s.memoryBitmap f
  tables : ∀ f, 0 < tableCount wholeFormat s'.mem h t f →
    0 < tableCount wholeFormat s.mem h t f ∨ (f < s.usablePageCount ∧ s.memoryBitmap f = 0)
  free : ∀ f < s.usablePageCount, s'.memoryBitmap f = 0 → s'.mem f = s.mem f
  data : ∀ f < s.usablePageCount, s.memoryBitmap f ≠ 0 →
    tableCount wholeFormat s.mem h t f = 0 → s'.mem f = s.mem f

theorem Builds.refl (h t : Nat) (s : PhysMem) : Builds h t s s :=
  ⟨rfl, fun _ _ => rfl, fun _ _ => rfl, fun _ => Or.inl, fun _ _ _ => rfl, fun _ _ _ _ => rfl⟩

theorem Builds.noTable {f : Nat} (hb : Builds h t s s') (hf : s.memoryBitmap f ≠ 0)
    (hzero : tableCount wholeFormat s.mem h t f = 0) :
    tableCount wholeFormat s'.mem h t f = 0 := by
  by_contra hne
  rcases hb.tables f (Nat.pos_of_ne_zero hne) with hpos | ⟨-, hfree⟩
  · exact Nat.ne_of_gt hpos hzero
  · exact hf hfree

theorem Builds.trans (hb : Builds h t s s') (hb' : Builds h t s' s'') : Builds h t s s'' where
  usable := hb'.usable.trans hb.usable
  leaf q hq := (hb'.leaf q hq).trans (hb.leaf q hq)
  bitmap f hf := by
    rw [hb'.bitmap f (by rwa [hb.bitmap f hf]), hb.bitmap f hf]
  tables f hf := by
    rcases hb'.tables f hf with hf | ⟨hlt, hfree⟩
    · exact hb.tables f hf
    · refine Or.inr ⟨hb.usable ▸ hlt, ?_⟩
      by_contra hused
      exact hused ((hb.bitmap f hused).symm.trans hfree)
  free f hlt hfree := by
    have hfree' : s'.memoryBitmap f = 0 := by
      by_contra hused
      exact hused ((hb'.bitmap f hused).symm.trans hfree)
    rw [hb'.free f (hb.usable ▸ hlt) hfree, hb.free f hlt hfree']
  data f hlt hused hzero := by
    rw [hb'.data f (hb.usable ▸ hlt) (by rwa [hb.bitmap f hused]) (hb.noTable hused hzero),
      hb.data f hlt hused hzero]

theorem Builds.pte {addr : Nat} (hb : Builds 4 root s s') :
    GlitchedOS.pte s' root addr = GlitchedOS.pte s root addr := by
  rw [pte_whole, pte_whole]
  exact hb.leaf _ (vpath_wholePath addr)

namespace TableTree

theorem forest_once (ht : TableTree s h t) (f : Nat) :
    forestTables wholeFormat s.mem [(h, t)] f ≤ 1 := by
  rw [forestTables_cons]
  exact ht.once f

theorem table_of_descend {m : Nat → Nat → Word} {k d t₀ : Nat} {l : List Word} {p : Nat → Nat}
    (hp : WholePath p) (hd : descend wholeFormat m p (k + 1) d t = some (l, t₀)) :
    0 < tableCount wholeFormat m (k + 1 + d) t t₀ :=
  Nat.lt_of_lt_of_le (tableCount_self_pos wholeFormat m k t₀)
    (tableCount_descend_le wholeFormat hp hd t₀)

/-- A table found or built on the way down a path. -/
theorem tableAt {k d t₀ c : Nat} {l : List Word} {p : Nat → Nat}
    (ht : TableTree s (k + 1 + 1 + d) t) (hp : WholePath p)
    (hd : descend wholeFormat s.mem p (k + 1 + 1) d t = some (l, t₀))
    (hok : GlitchedOS.tableAt s t₀ (p (k + 1 + 1)) = .ok (c, s')) :
    TableTree s' (k + 1 + 1 + d) t ∧ Builds (k + 1 + 1 + d) t s s' ∧
      (∀ j d', j + d' = d → descend wholeFormat s'.mem p (k + 1 + 1 + j) d' t =
        descend wholeFormat s.mem p (k + 1 + 1 + j) d' t) ∧
      ∃ l', descend wholeFormat s'.mem p (k + 1) (d + 1) t = some (l', c) := by
  rw [GlitchedOS.tableAt] at hok
  split at hok
  · rename_i hpres
    obtain ⟨rfl, rfl⟩ := Prod.mk.inj (Except.ok.inj hok)
    exact ⟨ht, .refl .., fun _ _ _ => rfl, _, descend_snoc wholeFormat hd hpres⟩
  rename_i habs
  rw [bind_ok] at hok
  obtain ⟨⟨f, s₁⟩, halloc, hok⟩ := hok
  dsimp only at hok
  split at hok
  · cases hok
  obtain ⟨hlt, hfree, hs₁⟩ := allocatePhysicalPage_ok halloc
  obtain ⟨hpres, htarget⟩ := link_word (Nat.lt_of_lt_of_le hlt s.usable_le)
  set e := (frameAddress f &&& pageMask) ||| higherLevelFlags
  have hzz : s₁.zeroFrame f = s₁ := by
    rw [hs₁, PhysMem.zeroFrame_zeroFrame]
  rw [hzz, PhysMem.writeWord_mem, write_same, htarget] at hok
  obtain ⟨rfl, rfl⟩ := Prod.mk.inj (Except.ok.inj hok)
  have hnil : ∀ i, s₁.mem f i = 0#64 := by
    intro i
    rw [hs₁]
    simp [PhysMem.zeroFrame]
  have hother : ∀ g, g ≠ f → s₁.mem g = s.mem g := by
    intro g hg
    rw [hs₁]
    simp [PhysMem.zeroFrame, hg]
  have hbitmap : ∀ g, g ≠ f → s₁.memoryBitmap g = s.memoryBitmap g := by
    intro g hg
    rw [hs₁]
    change (PhysMem.incCount _ f).memoryBitmap g = _
    rw [PhysMem.incCount_memoryBitmap _ (by simp [hfree]), if_neg (Ne.symm hg), Nat.add_zero]
  have husable : s₁.usablePageCount = s.usablePageCount := by
    rw [hs₁]
    rfl
  -- the new frame is no table of the tree
  have hnew : ∀ g, 0 < tableCount wholeFormat s.mem (k + 1 + 1 + d) t g → g ≠ f := by
    rintro g hg rfl
    exact ht.used g hlt hg hfree
  have hagree : ∀ g, 0 < tableCount wholeFormat s.mem (k + 1 + 1 + d) t g →
      ∀ i, s₁.mem g i = s.mem g i := fun g hg i => congrFun (hother g (hnew g hg)) i
  have hcount : ∀ g, tableCount wholeFormat s₁.mem (k + 1 + 1 + d) t g =
      tableCount wholeFormat s.mem (k + 1 + 1 + d) t g :=
    fun g => weight_congr wholeFormat _ _ hagree
  have hd₁ : descend wholeFormat s₁.mem p (k + 1 + 1) d t = some (l, t₀) := by
    rw [descend_congr wholeFormat hp hagree, hd]
  have ht₀ := table_of_descend hp hd
  have habs₁ : present (s₁.mem t₀ (p (k + 1 + 1))) = false := by
    rw [hother t₀ (hnew t₀ ht₀)]
    exact Bool.eq_false_iff.mpr habs
  have hempty : ∀ i < wholeFormat.width (k + 1), wholeFormat.present (s₁.mem f i) = false := by
    intro i _
    rw [hnil]
    exact present_zero
  have hself : ∀ g, tableCount wholeFormat s₁.mem (k + 1) f g = if f = g then 1 else 0 := fun g =>
    weight_of_empty wholeFormat _ _ hempty
  have honce₁ : ∀ g, forestTables wholeFormat s₁.mem
      [(k + 1, f), (k + 1 + 1 + d, t)] g ≤ 1 := by
    intro g
    have hg := ht.once g
    rw [forestTables_cons, forestTables_cons, hself, hcount]
    change _ + (_ + 0) ≤ 1
    by_cases hfg : f = g
    · subst hfg
      have hzero : ¬ 0 < tableCount wholeFormat s.mem (k + 1 + 1 + d) t f :=
        fun hpos => hnew f hpos rfl
      rw [if_pos rfl]
      omega
    · rw [if_neg hfg]
      omega
  have hlink : ∀ g, tableCount wholeFormat (write s₁.mem t₀ (p (k + 1 + 1)) e)
      (k + 1 + 1 + d) t g =
      (if f = g then 1 else 0) + tableCount wholeFormat s.mem (k + 1 + 1 + d) t g := by
    intro g
    have hweight := forestWeight_link wholeFormat (fun x => if x = g then 1 else 0)
      (fun _ => 0) hp honce₁ hd₁ habs₁ hpres htarget
    rw [forestWeight_cons, forestWeight_cons, forestWeight_cons, forestWeight_nil,
      Nat.add_zero, Nat.add_zero] at hweight
    rw [← hself, ← hcount]
    exact hweight
  have htree₁ : ∀ g, forestTables wholeFormat s₁.mem [(k + 1 + 1 + d, t)] g ≤ 1 := by
    intro g
    rw [forestTables_cons, hcount]
    exact ht.once g
  have hne : t₀ ≠ f := hnew t₀ ht₀
  have hkeep := leafWord_keep wholeFormat hp e htree₁ hd₁
    (fun q _ hq => by
      rw [leafWord_of_empty wholeFormat]
      rw [hq]
      exact habs₁)
    (fun q _ _ => leafWord_of_empty wholeFormat (by
      change present (write s₁.mem t₀ (p (k + 1 + 1)) e (frameOf e) _) = false
      rw [htarget, write_frame_ne _ _ _ (Ne.symm hne), hnil]
      exact present_zero))
  have hone : s₁.memoryBitmap f = 1 := by
    rw [hs₁]
    change (PhysMem.incCount _ f).memoryBitmap f = 1
    rw [PhysMem.incCount_memoryBitmap _ (by simp [hfree]), if_pos rfl]
    exact congrArg (· + 1) hfree
  have hmem : ∀ g, g ≠ f → g ≠ t₀ → write s₁.mem t₀ (p (k + 1 + 1)) e g = s.mem g := by
    intro g hgf hgt
    rw [← hother g hgf]
    exact funext (write_frame_ne _ _ _ hgt)
  refine ⟨⟨fun g => ?_, fun g hg hpos => ?_⟩, ⟨husable, fun q hq => ?_, fun g hg => ?_,
    fun g hpos => ?_, fun g hg hunused => hmem g ?_ ?_, fun g _ hused hzero => hmem g ?_ ?_⟩,
    ?_, ?_⟩
  · have hg := honce₁ g
    rw [forestTables_cons, forestTables_cons, hself, hcount] at hg
    rw [PhysMem.writeWord_mem, hlink]
    exact hg
  · rw [PhysMem.writeWord_mem, hlink] at hpos
    by_cases hfg : f = g
    · rw [← hfg]
      exact Nat.ne_of_gt (hone.symm ▸ Nat.one_pos)
    · rw [if_neg hfg, Nat.zero_add] at hpos
      have hused := ht.used g (husable ▸ hg) hpos
      rwa [← hbitmap g (Ne.symm hfg)] at hused
  · rw [← leafWord_congr wholeFormat hq hagree]
    exact hkeep _ List.mem_cons_self q hq
  · refine hbitmap g ?_
    rintro rfl
    exact hg hfree
  · rw [PhysMem.writeWord_mem, hlink] at hpos
    by_cases hfg : f = g
    · exact Or.inr ⟨hfg ▸ hlt, hfg ▸ hfree⟩
    · rw [if_neg hfg, Nat.zero_add] at hpos
      exact Or.inl hpos
  · rintro rfl
    rw [PhysMem.writeWord_memoryBitmap, hone] at hunused
    cases hunused
  · rintro rfl
    refine ht.used g hg ht₀ ?_
    rw [← hbitmap g (hnew g ht₀)]
    exact hunused
  · rintro rfl
    exact hused hfree
  · rintro rfl
    exact Nat.ne_of_gt ht₀ hzero
  · rintro j d' rfl
    have habove := descend_write_above wholeFormat hp (p (k + 1 + 1)) e
      (exclusive_of_once wholeFormat htree₁) hd₁
    refine habove.trans (descend_congr wholeFormat hp ?_)
    rwa [Nat.add_assoc]
  · have hdesc := descend_snoc wholeFormat (descend_write wholeFormat hp (p (k + 1 + 1)) e
      (exclusive_of_once wholeFormat htree₁) hd₁) (by rwa [write_same])
    rw [write_same] at hdesc
    change descend wholeFormat _ p (k + 1) (d + 1) t = some (_, frameOf e) at hdesc
    rw [htarget] at hdesc
    exact ⟨_, hdesc⟩

theorem cachedTable {k d t₀ c cached : Nat} {l : List Word} {p : Nat → Nat} {changed : Bool}
    (ht : TableTree s (k + 1 + 1 + d) t) (hp : WholePath p)
    (hd : descend wholeFormat s.mem p (k + 1 + 1) d t = some (l, t₀))
    (hcached : changed = false →
      ∃ l, descend wholeFormat s.mem p (k + 1) (d + 1) t = some (l, cached))
    (hok : GlitchedOS.cachedTable changed cached s t₀ (p (k + 1 + 1)) = .ok (c, s')) :
    TableTree s' (k + 1 + 1 + d) t ∧ Builds (k + 1 + 1 + d) t s s' ∧
      (∀ j d', j + d' = d → descend wholeFormat s'.mem p (k + 1 + 1 + j) d' t =
        descend wholeFormat s.mem p (k + 1 + 1 + j) d' t) ∧
      (changed = false → s' = s) ∧
      ∃ l', descend wholeFormat s'.mem p (k + 1) (d + 1) t = some (l', c) := by
  cases changed with
  | true =>
      obtain ⟨ht', hbuilds, habove, hdesc⟩ := ht.tableAt hp hd hok
      exact ⟨ht', hbuilds, habove, fun hfalse => Bool.noConfusion hfalse, hdesc⟩
  | false =>
      obtain ⟨rfl, rfl⟩ := Prod.mk.inj (Except.ok.inj hok)
      exact ⟨ht, .refl .., fun _ _ _ => rfl, fun _ => rfl, hcached rfl⟩

theorem orWord {k d t₀ : Nat} {l : List Word} {p : Nat → Nat}
    (ht : TableTree s (k + 1 + 1 + d) t) (hp : WholePath p)
    (hd : descend wholeFormat s.mem p (k + 1 + 1) d t = some (l, t₀))
    (hpres : present (s.mem t₀ (p (k + 1 + 1))) = true) :
    SameShape pageFormat s.mem (GlitchedOS.orWord s t₀ (p (k + 1 + 1)) higherLevelFlags).mem ∧
      TableTree (GlitchedOS.orWord s t₀ (p (k + 1 + 1)) higherLevelFlags) (k + 1 + 1 + d) t ∧
      Builds (k + 1 + 1 + d) t s
        (GlitchedOS.orWord s t₀ (p (k + 1 + 1)) higherLevelFlags) := by
  obtain ⟨hpres', htarget⟩ := higherLevelFlags_or hpres
  have hshape : SameShape wholeFormat s.mem
      (GlitchedOS.orWord s t₀ (p (k + 1 + 1)) higherLevelFlags).mem :=
    sameShape_write wholeFormat hpres' htarget
  have hcount : ∀ f, tableCount wholeFormat
      (GlitchedOS.orWord s t₀ (p (k + 1 + 1)) higherLevelFlags).mem (k + 1 + 1 + d) t f =
        tableCount wholeFormat s.mem (k + 1 + 1 + d) t f :=
    fun f => weight_sameShape wholeFormat hshape _ _ _ _
  have ht₀ := table_of_descend hp hd
  have hmem : ∀ f, f ≠ t₀ →
      (GlitchedOS.orWord s t₀ (p (k + 1 + 1)) higherLevelFlags).mem f = s.mem f := by
    intro f hne
    exact funext (write_frame_ne _ _ _ hne)
  refine ⟨hshape, ⟨fun f => ?_, fun f hf hpos => ?_⟩, rfl, ?_, fun _ _ => rfl, fun f hpos => ?_,
    fun f hf hfree => hmem f ?_, fun f _ _ hzero => hmem f ?_⟩
  · rw [hcount]
    exact ht.once f
  · rw [hcount] at hpos
    exact ht.used f hf hpos
  · exact leafWord_setLink wholeFormat hp ht.forest_once hd hpres' htarget _ List.mem_cons_self
  · rw [hcount] at hpos
    exact Or.inl hpos
  · rintro rfl
    exact ht.used f hf ht₀ hfree
  · rintro rfl
    exact Nat.ne_of_gt ht₀ hzero

section Walk

variable {addr pdpt pd pt : Nat}

theorem walked {m : Nat → Nat → Word} {l3 l2 l1 : List Word}
    (h3 : descend wholeFormat m (vpath addr) 3 1 root = some (l3, pdpt))
    (h2 : descend wholeFormat m (vpath addr) 2 2 root = some (l2, pd))
    (h1 : descend wholeFormat m (vpath addr) 1 3 root = some (l1, pt)) :
    Walked m root addr pdpt pd pt := by
  rw [descend_whole] at h3 h2 h1
  exact ⟨⟨_, h3⟩, ⟨_, h2⟩, _, h1⟩

/-- The three levels of the walk of a round, and the flags set on its links. -/
theorem walk {c : Cursor} {sa sb sc : PhysMem} (ht : TableTree s 4 root)
    (hv : c.Valid s.mem root addr)
    (ha : GlitchedOS.cachedTable c.pml4Changed c.pdpt s root (vpath addr 4) = .ok (pdpt, sa))
    (hb : GlitchedOS.cachedTable c.pdptChanged c.pd sa pdpt (vpath addr 3) = .ok (pd, sb))
    (hcc : GlitchedOS.cachedTable c.pdChanged c.pt sb pd (vpath addr 2) = .ok (pt, sc)) :
    TableTree sc 4 root ∧ Builds 4 root s sc ∧ Walked sc.mem root addr pdpt pd pt := by
  have hp := vpath_wholePath addr
  have hv3 := hv.pdpt
  have hv2 := hv.pd
  have hv1 := hv.pt
  simp only [← descend_whole] at hv3 hv2 hv1
  obtain ⟨hta, hba, -, hsa, l3, hd3⟩ := ht.cachedTable (k := 2) (d := 0) (l := []) hp rfl hv3 ha
  obtain ⟨htb, hbb, hab, hsb, l2, hd2⟩ := hta.cachedTable (k := 1) (d := 1) hp hd3
    (fun hfalse => by
      rw [hsa (hv.pdptOrder hfalse)]
      exact hv2 hfalse) hb
  obtain ⟨htc, hbc, hac, -, l1, hd1⟩ := htb.cachedTable (k := 0) (d := 2) hp hd2
    (fun hfalse => by
      have hpd := hv.pdOrder hfalse
      rw [hsb hpd, hsa (hv.pdptOrder hpd)]
      exact hv1 hfalse) hcc
  exact ⟨htc, (hba.trans hbb).trans hbc, walked (((hac 1 1 rfl).trans (hab 0 1 rfl)).trans hd3)
    ((hac 0 2 rfl).trans hd2) hd1⟩

theorem orWords (ht : TableTree s 4 root) (hw : Walked s.mem root addr pdpt pd pt) :
    let s' := GlitchedOS.orWord (GlitchedOS.orWord (GlitchedOS.orWord s root (vpath addr 4)
      higherLevelFlags) pdpt (vpath addr 3) higherLevelFlags) pd (vpath addr 2) higherLevelFlags
    TableTree s' 4 root ∧ Builds 4 root s s' ∧ Walked s'.mem root addr pdpt pd pt := by
  intro s'
  have hp := vpath_wholePath addr
  obtain ⟨hsh4, ht4, hb4⟩ := ht.orWord (k := 2) (d := 0) (l := []) hp rfl hw.links.1.1
  have hw4 := hw.sameShape hsh4
  obtain ⟨l3, hd3⟩ := hw4.pdpt
  rw [← descend_whole] at hd3
  obtain ⟨hsh3, ht3, hb3⟩ := ht4.orWord (k := 1) (d := 1) hp hd3 hw4.links.2.1.1
  have hw3 := hw4.sameShape hsh3
  obtain ⟨l2, hd2⟩ := hw3.pd
  rw [← descend_whole] at hd2
  obtain ⟨hsh2, ht2, hb2⟩ := ht3.orWord (k := 0) (d := 2) hp hd2 hw3.links.2.2.1
  exact ⟨ht2, (hb4.trans hb3).trans hb2, hw3.sameShape hsh2⟩

/-- A round maps one page of a memory in which tables may have been built. -/
theorem round {leaf : LeafSource} {c c' : Cursor} (ht : TableTree s 4 root)
    (hv : c.Valid s.mem root addr) (hok : allocRound leaf root addr c s = .ok (c', s')) :
    ∃ s₁ e f s₂ pdpt pd pt, TableTree s₁ 4 root ∧ Builds 4 root s s₁ ∧
      Walked s₁.mem root addr pdpt pd pt ∧ present (s₁.mem pt (vpath addr 1)) = false ∧
      leaf addr s₁ = .ok (e, f, s₂) ∧
      c' = Cursor.advance { c with pdpt := pdpt, pd := pd, pt := pt } ∧
      s' = (s₂.writeWord pt (vpath addr 1) e).incCount f := by
  simp only [allocRound, hv.idx, bind_ok] at hok
  obtain ⟨⟨pdpt, sa⟩, ha, ⟨pd, sb⟩, hb, ⟨pt, sc⟩, hcc, hok⟩ := hok
  obtain ⟨htc, hbuilds, hw⟩ := ht.walk hv ha hb hcc
  obtain ⟨hto, hbuilds', hwo⟩ := htc.orWords hw
  dsimp only at hok
  split at hok
  · cases hok
  rename_i habs
  rw [bind_ok] at hok
  obtain ⟨⟨e, f, s₂⟩, hleaf, hok⟩ := hok
  obtain ⟨rfl, rfl⟩ := Prod.mk.inj (Except.ok.inj hok)
  exact ⟨_, e, f, s₂, pdpt, pd, pt, hto, hbuilds.trans hbuilds', hwo,
    Bool.not_eq_true _ ▸ habs, hleaf, by rw [hv.idx], rfl⟩

theorem mapLeaf {f : Nat} {e : Word} {s₁ : PhysMem} (ht : TableTree s 4 root)
    (hw : Walked s.mem root addr pdpt pd pt) (hleaf : LeafOk s e f s₁) :
    let s' := (s₁.writeWord pt (vpath addr 1) e).incCount f
    TableTree s' 4 root ∧ Walked s'.mem root addr pdpt pd pt ∧
      (∀ g, tableCount wholeFormat s'.mem 4 root g = tableCount wholeFormat s.mem 4 root g) ∧
      (∀ g, s'.memoryBitmap g = s.memoryBitmap g + if f = g then 1 else 0) ∧
      (∀ g < s.usablePageCount, s.memoryBitmap g = 0 ∨
        tableCount wholeFormat s.mem 4 root g = 0 → s'.mem g = s.mem g) ∧
      ∀ a, (SamePage (vpath addr) (vpath a) → pte s' root a = some e) ∧
        (¬ SamePage (vpath addr) (vpath a) → pte s' root a = pte s root a) := by
  intro s'
  have hp := vpath_wholePath addr
  obtain ⟨n, rfl⟩ := hleaf.hint
  have hbitmap : ∀ g, s'.memoryBitmap g = s.memoryBitmap g + if f = g then 1 else 0 :=
    PhysMem.incCount_memoryBitmap _ hleaf.room
  have hmem : s'.mem = write s.mem pt (vpath addr 1) e := rfl
  have hex := exclusive_of_once wholeFormat ht.forest_once
  obtain ⟨l3, hd3⟩ := hw.pdpt
  obtain ⟨l2, hd2⟩ := hw.pd
  obtain ⟨l1, hd1⟩ := hw.pt
  rw [← descend_whole] at hd3 hd2 hd1
  -- a leaf word is no link
  have htables : ∀ g, tableCount wholeFormat s'.mem 4 root g =
      tableCount wholeFormat s.mem 4 root g := by
    intro g
    have hweight := forestWeight_write wholeFormat (fun x => if x = g then 1 else 0)
      (fun _ => 0) (k := 0) (d := 3) hp e ht.forest_once hd1
    have hleaf₀ : ∀ m w, entryWeight wholeFormat m (fun x => if x = g then 1 else 0)
        (fun _ => 0) 0 w = 0 := fun _ _ => ite_self 0
    rw [hmem, tableCount, tableCount]
    simpa only [hleaf₀, forestWeight_cons, forestWeight_nil, Nat.add_zero] using hweight
  have hw3 := (descend_write_above wholeFormat hp (k := 0) (j := 2) (d := 1) (vpath addr 1) e hex
    hd1).trans hd3
  have hw2 := (descend_write_above wholeFormat hp (j := 1) (d := 2) (vpath addr 1) e hex
    hd1).trans hd2
  have hw1 := descend_write wholeFormat hp (k := 0) (d := 3) (vpath addr 1) e hex hd1
  have hwalked := walked hw3 hw2 hw1
  rw [← hmem] at hwalked
  have hpt := table_of_descend (k := 0) (d := 3) hp hd1
  refine ⟨⟨fun g => ?_, fun g hg hpos => ?_⟩, hwalked, htables, hbitmap, fun g hg hor => ?_,
    fun a => ?_⟩
  · rw [htables]
    exact ht.once g
  · rw [htables] at hpos
    have hused := ht.used g hg hpos
    rw [hbitmap]
    omega
  · rw [hmem]
    refine funext (write_frame_ne _ _ _ ?_)
    rintro rfl
    exact hor.elim (ht.used g hg hpt) (Nat.ne_of_gt hpt)
  · obtain ⟨hself, hother, -⟩ := leafWord_setLeaf wholeFormat (d := 3) hp e ht.forest_once hd1
    rw [pte_whole, pte_whole, hmem]
    refine ⟨fun hsame => (hself _ hsame).trans (if_pos hleaf.pres), fun hne => ?_⟩
    exact hother _ (vpath_wholePath a) (not_samePage hne)

end Walk

end TableTree

end GlitchedOS
