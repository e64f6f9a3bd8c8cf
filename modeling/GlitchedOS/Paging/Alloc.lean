/-
The allocation loops.  The walk that finds or builds the tables of a page keeps
every count exact and every translation as it was; a round then maps one page,
and the cached table pointers are those a fresh walk would find.
-/
import GlitchedOS.Paging.Walk

namespace GlitchedOS

open Radix

variable {s s' s'' : PhysMem} {held : Nat → Nat} {trees rest : List (Nat × Nat)}
variable {flags : Flags} {root addr pdpt pd pt : Nat} {l : List Word} {p : Nat → Nat}

theorem PhysMem.zeroFrame_zeroFrame (s : PhysMem) (f : Nat) :
    (s.zeroFrame f).zeroFrame f = s.zeroFrame f := by
  simp only [PhysMem.zeroFrame]
  congr 1
  funext g
  split <;> rfl

/-- The table behind a word of the walk, found or built. -/
theorem tableAt_spec {k d t t₀ c : Nat}
    (hc : Counted s held ((k + 1 + 1 + d, t) :: rest)) (hp : InRange p)
    (hd : descend pageFormat s.mem p (k + 1 + 1) d t = some (l, t₀))
    (h : tableAt s t₀ (p (k + 1 + 1)) = .ok (c, s')) :
    Counted s' held ((k + 1 + 1 + d, t) :: rest) ∧
      Grows ((k + 1 + 1 + d, t) :: rest) s s' ∧
      (∀ j d', j + d' = d → descend pageFormat s'.mem p (k + 1 + 1 + j) d' t =
        descend pageFormat s.mem p (k + 1 + 1 + j) d' t) ∧
      (∀ g, s.memoryBitmap g ≠ 0 ∨ s.usablePageCount ≤ g →
        forestTables pageFormat s'.mem ((k + 1 + 1 + d, t) :: rest) g =
          forestTables pageFormat s.mem ((k + 1 + 1 + d, t) :: rest) g) ∧
      ∃ l', descend pageFormat s'.mem p (k + 1) (d + 1) t = some (l', c) := by
  rw [tableAt] at h
  split at h
  · rename_i hpres
    obtain ⟨rfl, rfl⟩ := Prod.mk.inj (Except.ok.inj h)
    exact ⟨hc, .refl _ _, fun _ _ _ => rfl, fun _ _ => rfl, _,
      descend_snoc pageFormat hd hpres⟩
  · rename_i habs
    rw [bind_ok] at h
    obtain ⟨⟨f, s₁⟩, halloc, h⟩ := h
    dsimp only at h
    split at h
    · cases h
    obtain ⟨hlt, hzero, hs₁⟩ := allocatePhysicalPage_ok halloc
    obtain ⟨hgrow, hnil, hother⟩ := hc.grows_allocatePhysicalPage halloc
    have hc₁ := hc.allocatePhysicalPage halloc k
    have hf40 : f < 2 ^ 40 := Nat.lt_of_lt_of_le hlt s.usable_le
    obtain ⟨hpres, htarget⟩ := link_word hf40
    set e := (frameAddress f &&& pageMask) ||| higherLevelFlags
    have hzz : s₁.zeroFrame f = s₁ := by
      rw [hs₁, PhysMem.zeroFrame_zeroFrame]
    rw [hzz, PhysMem.writeWord_mem, write_same, htarget] at h
    obtain ⟨rfl, rfl⟩ := Prod.mk.inj (Except.ok.inj h)
    -- the new frame is none of the tables the walk has passed
    obtain ⟨-, hnotable, -⟩ := hc.fresh hlt hzero
    have hagree : ∀ g, 0 < tableCount pageFormat s.mem (k + 1 + 1 + d) t g →
        ∀ i, s₁.mem g i = s.mem g i := by
      intro g hg i
      rw [hother g]
      rintro rfl
      rw [forestTables_cons] at hnotable
      omega
    have hd₁ : descend pageFormat s₁.mem p (k + 1 + 1) d t = some (l, t₀) := by
      rw [descend_congr pageFormat hp hagree, hd]
    have hne : t₀ ≠ f := by
      rintro rfl
      have hself := Nat.lt_of_lt_of_le
        (tableCount_self_pos pageFormat s.mem (k + 1) t₀)
        (tableCount_descend_le pageFormat hp hd t₀)
      rw [forestTables_cons] at hnotable
      omega
    have habs₁ : present (s₁.mem t₀ (p (k + 1 + 1))) = false := by
      rw [hother t₀ hne]
      simpa using habs
    have husable : s₁.usablePageCount = s.usablePageCount := hgrow.usable
    have hlink := hc₁.link hp hd₁ habs₁ hpres htarget (husable ▸ hlt)
    have hchild : ∀ i, write s₁.mem t₀ (p (k + 1 + 1)) e f i = 0#64 := by
      intro i
      rw [write_frame_ne _ _ _ (Ne.symm hne), hnil]
    have honce₁ : ∀ g, forestTables pageFormat s₁.mem
        ((k + 1 + 1 + d, t) :: rest) g ≤ 1 := by
      intro g
      have := hc₁.once g
      rw [forestTables_cons] at this
      omega
    have hkeep := leafWord_keep pageFormat hp e honce₁ hd₁
      (fun q _ hq => by
        rw [leafWord_of_empty pageFormat]
        rw [hq]
        exact habs₁)
      (fun q _ _ => leafWord_of_empty pageFormat (by
        change present (write s₁.mem t₀ (p (k + 1 + 1)) e (frameOf e) _) = false
        rw [htarget, hchild]
        exact present_zero))
    have hdesc := descend_snoc pageFormat (descend_write pageFormat hp
      (p (k + 1 + 1)) e (exclusive_of_once pageFormat honce₁) hd₁)
      (by rwa [write_same])
    rw [write_same] at hdesc
    change descend pageFormat _ p (k + 1) (d + 1) t = some (_, frameOf e) at hdesc
    rw [htarget] at hdesc
    -- no other frame than the new one becomes a table
    have htables : ∀ g, f ≠ g →
        forestTables pageFormat (write s₁.mem t₀ (p (k + 1 + 1)) e)
          ((k + 1 + 1 + d, t) :: rest) g =
        forestTables pageFormat s.mem ((k + 1 + 1 + d, t) :: rest) g := by
      intro g hgf
      have htab := forestWeight_link pageFormat
        (fun x => if x = g then 1 else 0) (fun _ => 0) hp hc₁.tables_le_one
        hd₁ habs₁ hpres htarget
      rw [forestWeight_cons pageFormat s₁.mem, weight_of_empty pageFormat _ _ (by
        intro i _
        change present _ = false
        rw [hnil, present_zero]), if_neg hgf, Nat.zero_add] at htab
      refine htab.trans (forestWeight_congr pageFormat _ _ fun x hx i => ?_)
      rw [hother x]
      rintro rfl
      omega
    have hused : ∀ g, s.memoryBitmap g ≠ 0 ∨ s.usablePageCount ≤ g → f ≠ g := by
      rintro g (hg | hg) rfl
      · exact hg hzero
      · omega
    refine ⟨hlink, ⟨husable, hgrow.zero, ?_, hgrow.bitmap, ?_, ?_⟩, ?_, ?_, _,
      hdesc⟩
    · intro x hx q hq
      exact (hkeep x hx q hq).trans (hgrow.leaf x hx q hq)
    · intro g _ hg
      exact htables g (hused g (Or.inl hg))
    · intro g hg hused htab
      have hgt : g ≠ t₀ := by
        rintro rfl
        have hself := Nat.lt_of_lt_of_le
          (tableCount_self_pos pageFormat s.mem (k + 1) g)
          (tableCount_descend_le pageFormat hp hd g)
        rw [forestTables_cons] at htab
        omega
      rw [← hgrow.data g hg hused htab]
      funext i
      exact write_frame_ne _ _ _ hgt i
    · rintro j d' rfl
      have habove := descend_write_above pageFormat hp (p (k + 1 + 1)) e
        (exclusive_of_once pageFormat honce₁) hd₁
      refine habove.trans (descend_congr pageFormat hp ?_)
      rwa [Nat.add_assoc]
    · exact fun g hold => htables g (hused g hold)

/-! ### One round -/

theorem higherLevelFlags_or {e : Word} (hpres : present e = true) :
    present (e ||| higherLevelFlags) = present e ∧
      frameOf (e ||| higherLevelFlags) = frameOf e := by
  constructor
  · rw [hpres, present, hasFlag_present, BitVec.getLsbD_or]
    simp [higherLevelFlags, flagsPresent, flagsRw, flagsUser]
  · apply frameOf_congr
    have : higherLevelFlags &&& ~~~flagsMask = 0#64 := by decide
    rw [BitVec.and_or_distrib_right, this, BitVec.or_zero]

theorem orWord_spec {k d t t₀ : Nat}
    (hc : Counted s held ((k + 1 + 1 + d, t) :: rest)) (hp : InRange p)
    (hd : descend pageFormat s.mem p (k + 1 + 1) d t = some (l, t₀))
    (hpres : present (s.mem t₀ (p (k + 1 + 1))) = true) :
    SameShape pageFormat s.mem
        (orWord s t₀ (p (k + 1 + 1)) higherLevelFlags).mem ∧
      Counted (orWord s t₀ (p (k + 1 + 1)) higherLevelFlags) held
        ((k + 1 + 1 + d, t) :: rest) ∧
      Grows ((k + 1 + 1 + d, t) :: rest) s
        (orWord s t₀ (p (k + 1 + 1)) higherLevelFlags) := by
  obtain ⟨hpres', htarget⟩ := higherLevelFlags_or hpres
  have hshape : SameShape pageFormat s.mem
      (orWord s t₀ (p (k + 1 + 1)) higherLevelFlags).mem :=
    sameShape_write pageFormat hpres' htarget
  refine ⟨hshape, hc.sameShape hshape rfl rfl, rfl, rfl, ?_, fun _ _ => rfl,
    ?_, ?_⟩
  · exact leafWord_setLink pageFormat hp hc.tables_le_one hd hpres' htarget
  · intro f _ _
    rw [forestTables, forestTables, forestWeight, forestWeight]
    simp only [weight_sameShape pageFormat hshape]
  · intro f _ _ htab
    have hne : f ≠ t₀ := by
      rintro rfl
      have hself := Nat.lt_of_lt_of_le
        (tableCount_self_pos pageFormat s.mem (k + 1) f)
        (tableCount_descend_le pageFormat hp hd f)
      rw [forestTables_cons] at htab
      omega
    funext i
    exact write_frame_ne _ _ _ hne i

/-- The cached pointers of a cursor are those a walk to `addr` would find, and
a pointer is cached only below a cached one. -/
structure Cursor.Valid (c : Cursor) (m : Nat → Nat → Word) (root addr : Nat) :
    Prop where
  idx : c.idx = getPageEntry addr
  pdptOrder : c.pdptChanged = false → c.pml4Changed = false
  pdOrder : c.pdChanged = false → c.pdptChanged = false
  pdpt : c.pml4Changed = false →
    ∃ l, descend pageFormat m (vpath addr) 3 1 root = some (l, c.pdpt)
  pd : c.pdptChanged = false →
    ∃ l, descend pageFormat m (vpath addr) 2 2 root = some (l, c.pd)
  pt : c.pdChanged = false →
    ∃ l, descend pageFormat m (vpath addr) 1 3 root = some (l, c.pt)

theorem Cursor.valid_start (m : Nat → Nat → Word) (root vaddr : Nat) :
    (Cursor.start vaddr).Valid m root vaddr := by
  constructor <;> first | rfl | exact fun h => Bool.noConfusion h

theorem cachedTable_spec {k d t t₀ c cached : Nat} {changed : Bool}
    (hc : Counted s held ((k + 1 + 1 + d, t) :: rest)) (hp : InRange p)
    (hd : descend pageFormat s.mem p (k + 1 + 1) d t = some (l, t₀))
    (hcached : changed = false →
      ∃ l, descend pageFormat s.mem p (k + 1) (d + 1) t = some (l, cached))
    (h : cachedTable changed cached s t₀ (p (k + 1 + 1)) = .ok (c, s')) :
    Counted s' held ((k + 1 + 1 + d, t) :: rest) ∧
      Grows ((k + 1 + 1 + d, t) :: rest) s s' ∧
      (∀ j d', j + d' = d → descend pageFormat s'.mem p (k + 1 + 1 + j) d' t =
        descend pageFormat s.mem p (k + 1 + 1 + j) d' t) ∧
      (changed = false → s' = s) ∧
      ∃ l', descend pageFormat s'.mem p (k + 1) (d + 1) t = some (l', c) := by
  cases changed with
  | true =>
      obtain ⟨hc', hgrow, habove, -, hdesc⟩ := tableAt_spec hc hp hd h
      exact ⟨hc', hgrow, habove, fun hfalse => Bool.noConfusion hfalse, hdesc⟩
  | false =>
      obtain ⟨rfl, rfl⟩ := Prod.mk.inj (Except.ok.inj h)
      exact ⟨hc, .refl _ _, fun _ _ _ => rfl, fun _ => rfl, hcached rfl⟩

theorem cachedTable_walk {c : Cursor}
    {sa sb sc : PhysMem} (hc : Counted s held ((4, root) :: rest))
    (haddr : addr < lowerHalf) (hv : c.Valid s.mem root addr)
    (ha : cachedTable c.pml4Changed c.pdpt s root (vpath addr 4) =
      .ok (pdpt, sa))
    (hb : cachedTable c.pdptChanged c.pd sa pdpt (vpath addr 3) = .ok (pd, sb))
    (hcc : cachedTable c.pdChanged c.pt sb pd (vpath addr 2) = .ok (pt, sc)) :
    Counted sc held ((4, root) :: rest) ∧ Grows ((4, root) :: rest) s sc ∧
      Walked sc.mem root addr pdpt pd pt := by
  have hp := vpath_inRange haddr
  obtain ⟨hca, hga, -, hsa, l3, hd3⟩ := cachedTable_spec (k := 2) (d := 0)
    (l := []) hc hp rfl hv.pdpt ha
  obtain ⟨hcb, hgb, hab, hsb, l2, hd2⟩ := cachedTable_spec (k := 1) (d := 1)
    hca hp hd3 (fun hfalse => by
      rw [hsa (hv.pdptOrder hfalse)]
      exact hv.pd hfalse) hb
  obtain ⟨hcc, hgc, hac, -, l1, hd1⟩ := cachedTable_spec (k := 0) (d := 2)
    hcb hp hd2 (fun hfalse => by
      have hpd := hv.pdOrder hfalse
      rw [hsb hpd, hsa (hv.pdptOrder hpd)]
      exact hv.pt hfalse) hcc
  refine ⟨hcc, (hga.trans hgb).trans hgc, ⟨l3, ?_⟩, ⟨l2, ?_⟩, l1, hd1⟩
  · rw [hac 1 1 rfl, hab 0 1 rfl, hd3]
  · rw [hac 0 2 rfl, hd2]

theorem orWord_walk (hc : Counted s held ((4, root) :: rest)) (haddr : addr < lowerHalf)
    (hw : Walked s.mem root addr pdpt pd pt) :
    let s' := orWord (orWord (orWord s root (vpath addr 4) higherLevelFlags)
      pdpt (vpath addr 3) higherLevelFlags) pd (vpath addr 2) higherLevelFlags
    Counted s' held ((4, root) :: rest) ∧ Grows ((4, root) :: rest) s s' ∧
      Walked s'.mem root addr pdpt pd pt := by
  have hp := vpath_inRange haddr
  intro s'
  obtain ⟨hsh4, hc4, hg4⟩ := orWord_spec (k := 2) (d := 0) (l := []) hc hp rfl
    hw.links.1.1
  have hw4 := hw.sameShape hsh4
  obtain ⟨l3, hd3⟩ := hw4.pdpt
  obtain ⟨hsh3, hc3, hg3⟩ := orWord_spec (k := 1) (d := 1) hc4 hp hd3
    hw4.links.2.1.1
  have hw3 := hw4.sameShape hsh3
  obtain ⟨l2, hd2⟩ := hw3.pd
  obtain ⟨hsh2, hc2, hg2⟩ := orWord_spec (k := 0) (d := 2) hc3 hp hd2
    hw3.links.2.2.1
  exact ⟨hc2, (hg4.trans hg3).trans hg2, hw3.sameShape hsh2⟩

/-- Setting the flags of the three links of a walk changes no link. -/
theorem orWord_sameShape (hw : Walked s.mem root addr pdpt pd pt) :
    SameShape pageFormat s.mem (orWord (orWord (orWord s root (vpath addr 4) higherLevelFlags)
      pdpt (vpath addr 3) higherLevelFlags) pd (vpath addr 2) higherLevelFlags).mem := by
  obtain ⟨⟨h4, -⟩, ⟨h3, -⟩, h2, -⟩ := hw.links
  have hor : ∀ (st : PhysMem) (t i : Nat), present (st.mem t i) = true →
      SameShape pageFormat st.mem (orWord st t i higherLevelFlags).mem := fun st t i hpres =>
    sameShape_write pageFormat (higherLevelFlags_or hpres).1 (higherLevelFlags_or hpres).2
  have hsh4 := hor s root (vpath addr 4) h4
  have hsh3 := hor _ pdpt (vpath addr 3) ((hsh4 pdpt _).1.trans h3)
  have hsh2 := hor _ pd (vpath addr 2) ((hsh3 pd _).1.trans ((hsh4 pd _).1.trans h2))
  intro t i
  exact ⟨(hsh2 t i).1.trans ((hsh3 t i).1.trans (hsh4 t i).1),
    (hsh2 t i).2.trans ((hsh3 t i).2.trans (hsh4 t i).2)⟩

/-! ### Mapping the page of a round -/

/-- What a leaf source promises about the word it hands out. -/
structure LeafOk (s : PhysMem) (e : Word) (f : Nat) (s' : PhysMem) : Prop where
  pres : present e = true
  target : frameOf e = f
  lt : f < s.usablePageCount
  room : s.memoryBitmap f + 1 < 2 ^ 32
  hint : ∃ n, s' = { s with firstUsable := n }

/-- The page mapped by a round. -/
theorem Counted.mapLeaf {f : Nat} {e : Word}
    {s₁ : PhysMem} (hc : Counted s held ((4, root) :: rest))
    (haddr : addr < lowerHalf) (hw : Walked s.mem root addr pdpt pd pt)
    (habs : present (s.mem pt (vpath addr 1)) = false)
    (hleaf : LeafOk s e f s₁) :
    let s' := (s₁.writeWord pt (vpath addr 1) e).incCount f
    Counted s' held ((4, root) :: rest) ∧
      LeafSet root rest (vpath addr) (some e) s s' ∧
      (∀ g, s'.memoryBitmap g = s.memoryBitmap g + if f = g then 1 else 0) ∧
      Walked s'.mem root addr pdpt pd pt := by
  intro s'
  have hp := vpath_inRange haddr
  obtain ⟨n, rfl⟩ := hleaf.hint
  obtain ⟨l1, hd1⟩ := hw.pt
  have hbitmap : ∀ g, s'.memoryBitmap g =
      s.memoryBitmap g + if f = g then 1 else 0 :=
    PhysMem.incCount_memoryBitmap _ hleaf.room
  refine ⟨hc.setLeaf (d := 3) hp hd1 e rfl rfl ?_ ?_, ?_, hbitmap, ?_⟩
  · intro g _
    rw [hbitmap g, habs, hleaf.pres, hleaf.target]
    rfl
  · intro _
    exact hleaf.target ▸ hleaf.lt
  · have hset : LeafSet root rest (vpath addr)
        (if present e then some e else none) s s' :=
      hc.leafSet hp hd1 e rfl rfl rfl
    rwa [if_pos hleaf.pres] at hset
  · exact hw.writeLeaf hc haddr _ e

/-- Going to the next page keeps the indices above the first one that does not
wrap. -/
theorem vpath_next (addr : Nat) :
    (vpath addr 1 + 1 < 512 → vpath (addr + pageSize) 2 = vpath addr 2) ∧
    (vpath addr 1 + 1 < 512 ∨ vpath addr 2 + 1 < 512 →
      vpath (addr + pageSize) 3 = vpath addr 3) ∧
    (vpath addr 1 + 1 < 512 ∨ vpath addr 2 + 1 < 512 ∨ vpath addr 3 + 1 < 512 →
      vpath (addr + pageSize) 4 = vpath addr 4) := by
  simp only [vpath, getPageEntry, pageSize]
  omega

/-- The carries of the four indices are those of the address, but for the last page of the 48
bits. -/
theorem Cursor.advance_idx_of {c : Cursor} (hlast : addr / 2 ^ 12 % 2 ^ 36 + 1 < 2 ^ 36)
    (hidx : c.idx = getPageEntry addr) : c.advance.idx = getPageEntry (addr + pageSize) := by
  simp only [Cursor.advance, hidx, getPageEntry, pageSize]
  split
  · simp only [PageAddress.mk.injEq]
    omega
  · split
    · simp only [PageAddress.mk.injEq]
      omega
    · split
      · simp only [PageAddress.mk.injEq]
        omega
      · simp only [PageAddress.mk.injEq]
        omega

theorem Cursor.advance_idx {c : Cursor} (haddr : addr < lowerHalf)
    (hidx : c.idx = getPageEntry addr) :
    c.advance.idx = getPageEntry (addr + pageSize) := by
  simp only [lowerHalf] at haddr
  exact Cursor.advance_idx_of (by omega) hidx

theorem Cursor.advance_valid {m : Nat → Nat → Word}
    {c : Cursor} (hidx : c.idx = getPageEntry addr)
    (hnext : c.advance.idx = getPageEntry (addr + pageSize))
    (hw : Walked m root addr c.pdpt c.pd c.pt) :
    c.advance.Valid m root (addr + pageSize) := by
  obtain ⟨hnext2, hnext3, hnext4⟩ := vpath_next addr
  have hpdpt : c.advance.pdpt = c.pdpt ∧ c.advance.pd = c.pd ∧
      c.advance.pt = c.pt := by
    unfold Cursor.advance
    dsimp only
    split
    · exact ⟨rfl, rfl, rfl⟩
    · split
      · exact ⟨rfl, rfl, rfl⟩
      · split <;> exact ⟨rfl, rfl, rfl⟩
  have hflags : (c.advance.pdChanged = false ↔ vpath addr 1 + 1 < 512) ∧
      (c.advance.pdptChanged = false ↔
        vpath addr 1 + 1 < 512 ∨ vpath addr 2 + 1 < 512) ∧
      (c.advance.pml4Changed = false ↔ vpath addr 1 + 1 < 512 ∨
        vpath addr 2 + 1 < 512 ∨ vpath addr 3 + 1 < 512) := by
    simp only [vpath, ← hidx]
    unfold Cursor.advance
    dsimp only
    split
    · refine ⟨?_, ?_, ?_⟩ <;> simp <;> omega
    · split
      · refine ⟨?_, ?_, ?_⟩ <;> simp <;> omega
      · split <;> refine ⟨?_, ?_, ?_⟩ <;> simp <;> omega
  obtain ⟨hpd, hpdptc, hpml4⟩ := hflags
  obtain ⟨⟨l3, hd3⟩, ⟨l2, hd2⟩, l1, hd1⟩ := hw
  refine ⟨hnext, ?_, ?_, ?_, ?_, ?_⟩
  · intro h
    rw [hpml4]
    have := hpdptc.mp h
    omega
  · intro h
    rw [hpdptc]
    exact Or.inl (hpd.mp h)
  · intro h
    refine ⟨l3, ?_⟩
    rw [hpdpt.1, ← hd3]
    apply descend_path_congr
    intro j hlo hhi
    obtain rfl : j = 4 := by omega
    exact hnext4 (hpml4.mp h)
  · intro h
    have h3 := hpdptc.mp h
    refine ⟨l2, ?_⟩
    rw [hpdpt.2.1, ← hd2]
    apply descend_path_congr
    intro j hlo hhi
    obtain rfl | rfl : j = 3 ∨ j = 4 := by omega
    · exact hnext3 h3
    · exact hnext4 (by omega)
  · intro h
    have h2 := hpd.mp h
    refine ⟨l1, ?_⟩
    rw [hpdpt.2.2, ← hd1]
    apply descend_path_congr
    intro j hlo hhi
    obtain rfl | rfl | rfl : j = 2 ∨ j = 3 ∨ j = 4 := by omega
    · exact hnext2 h2
    · exact hnext3 (Or.inl h2)
    · exact hnext4 (Or.inl h2)

/-! ### The loop -/

/-- A round maps one page of a memory in which tables may have been built. -/
theorem allocRound_ok {leaf : LeafSource} {c c' : Cursor}
    (hc : Counted s held ((4, root) :: rest)) (haddr : addr < lowerHalf)
    (hv : c.Valid s.mem root addr)
    (h : allocRound leaf root addr c s = .ok (c', s')) :
    ∃ s₁ e f s₂ pdpt pd pt,
      Counted s₁ held ((4, root) :: rest) ∧ Grows ((4, root) :: rest) s s₁ ∧
      Walked s₁.mem root addr pdpt pd pt ∧
      present (s₁.mem pt (vpath addr 1)) = false ∧
      leaf addr s₁ = .ok (e, f, s₂) ∧
      c' = Cursor.advance { c with pdpt := pdpt, pd := pd, pt := pt } ∧
      s' = (s₂.writeWord pt (vpath addr 1) e).incCount f := by
  simp only [allocRound, hv.idx, bind_ok] at h
  obtain ⟨⟨pdpt, sa⟩, ha, ⟨pd, sb⟩, hb, ⟨pt, sc⟩, hcc, h⟩ := h
  obtain ⟨hcw, hgw, hw⟩ := cachedTable_walk hc haddr hv ha hb hcc
  obtain ⟨hco, hgo, hwo⟩ := orWord_walk hcw haddr hw
  dsimp only at h
  split at h
  · cases h
  rename_i habs
  rw [bind_ok] at h
  obtain ⟨⟨e, f, s₂⟩, hleaf, h⟩ := h
  obtain ⟨rfl, rfl⟩ := Prod.mk.inj (Except.ok.inj h)
  exact ⟨_, e, f, s₂, pdpt, pd, pt, hco, hgw.trans hgo, hwo,
    Bool.not_eq_true _ ▸ habs, hleaf, by rw [hv.idx], rfl⟩

theorem Walked.pte_none (hw : Walked s.mem root addr pdpt pd pt)
    (habs : present (s.mem pt (vpath addr 1)) = false) : pte s root addr = none := by
  rw [pte, hw.leafWord, habs]
  rfl

/-- An assertion about the rounds done holds after `n` of them when building tables
keeps it and each mapped page takes it one round on; the cursor then stands at page
`n`. -/
theorem allocRounds_rule {leaf : LeafSource} {vaddr : Nat}
    (I : Nat → PhysMem → Prop) (hc : Counted s held ((4, root) :: rest))
    (hgrow : ∀ k s s', Counted s held ((4, root) :: rest) →
      Grows ((4, root) :: rest) s s' → I k s → I k s') :
    ∀ (n : Nat), (∀ k < n, vaddr + k * pageSize < lowerHalf) →
    (∀ k s e f s₁, Counted s held ((4, root) :: rest) → I k s → k < n →
      pte s root (vaddr + k * pageSize) = none →
      leaf (vaddr + k * pageSize) s = .ok (e, f, s₁) →
        LeafOk s e f s₁ ∧ ∀ s', Counted s' held ((4, root) :: rest) →
          LeafSet root rest (vpath (vaddr + k * pageSize)) (some e) s s' →
          (∀ g, s'.memoryBitmap g =
            s.memoryBitmap g + if f = g then 1 else 0) → I (k + 1) s') →
    I 0 s → ∀ c₁ s₁, loopRounds (fun k (c, s) =>
        allocRound leaf root (vaddr + k * pageSize) c s) n
        (Cursor.start vaddr, s) = .ok (c₁, s₁) →
      Counted s₁ held ((4, root) :: rest) ∧ I n s₁ ∧
        c₁.Valid s₁.mem root (vaddr + n * pageSize) := by
  intro n
  induction n with
  | zero =>
      intro _ _ hstart c₁ s₁ h
      obtain ⟨rfl, rfl⟩ := Prod.mk.inj (Except.ok.inj h)
      rw [Nat.zero_mul, Nat.add_zero]
      exact ⟨hc, hstart, Cursor.valid_start _ _ _⟩
  | succ n ih =>
      intro hfit hmap hstart c₁ s₁ h
      rw [loopRounds, bind_ok] at h
      obtain ⟨⟨c₀, s₀⟩, hbefore, h⟩ := h
      obtain ⟨hc₀, hI₀, hv₀⟩ := ih (fun k hk => hfit k (Nat.lt_succ_of_lt hk))
        (fun k s e f s₁ hc hI hk =>
          hmap k s e f s₁ hc hI (Nat.lt_succ_of_lt hk)) hstart c₀ s₀ hbefore
      have haddr := hfit n (Nat.lt_succ_self n)
      obtain ⟨sw, e, f, sl, pdpt, pd, pt, hcw, hgw, hw, habs, hleaf, rfl,
        rfl⟩ := allocRound_ok hc₀ haddr hv₀ h
      obtain ⟨hok, hnext⟩ := hmap n sw e f sl hcw (hgrow n s₀ sw hc₀ hgw hI₀)
        (Nat.lt_succ_self n) (hw.pte_none habs) hleaf
      obtain ⟨hc₁, hset, hbitmap, hw₁⟩ := hcw.mapLeaf haddr hw habs hok
      refine ⟨hc₁, hnext _ hc₁ hset hbitmap, ?_⟩
      rw [Nat.succ_mul, ← Nat.add_assoc]
      exact Cursor.advance_valid hv₀.idx (Cursor.advance_idx haddr hv₀.idx) hw₁

/-- The rule for the rounds of a whole region. -/
theorem allocLoop_rule {leaf : LeafSource} {vaddr size : Nat}
    (I : Nat → PhysMem → Prop) (hc : Counted s held ((4, root) :: rest))
    (hfit : vaddr + size ≤ lowerHalf)
    (hgrow : ∀ k s s', Counted s held ((4, root) :: rest) →
      Grows ((4, root) :: rest) s s' → I k s → I k s')
    (hmap : ∀ k s e f s₁, Counted s held ((4, root) :: rest) → I k s →
      k < pageRounds vaddr (pageAlign (vaddr + size)) →
      leaf (vaddr + k * pageSize) s = .ok (e, f, s₁) →
        LeafOk s e f s₁ ∧ ∀ s', Counted s' held ((4, root) :: rest) →
          LeafSet root rest (vpath (vaddr + k * pageSize)) (some e) s s' →
          (∀ g, s'.memoryBitmap g =
            s.memoryBitmap g + if f = g then 1 else 0) → I (k + 1) s')
    (hstart : I 0 s) (h : allocLoop leaf s root vaddr size = .ok s') :
    Counted s' held ((4, root) :: rest) ∧
      I (pageRounds vaddr (pageAlign (vaddr + size))) s' := by
  rw [allocLoop, bind_ok] at h
  obtain ⟨⟨c', s₁⟩, hloop, h⟩ := h
  obtain rfl := Except.ok.inj h
  obtain ⟨hc', hI, -⟩ := allocRounds_rule I hc hgrow _
    (fun k hk => round_lt_lowerHalf hfit hk)
    (fun k s e f s₁ hc hI hk _ => hmap k s e f s₁ hc hI hk) hstart c' s₁ hloop
  exact ⟨hc', hI⟩

/-! ### The words the three loops install -/

theorem mapWord_spec {f : Nat} (hf : f < 2 ^ 40) (flags : Flags) :
    present (mapWord f flags) = true ∧ frameOf (mapWord f flags) = f ∧
      hasFlag (mapWord f flags) flagsRw = hasFlag flags.1 flagsRw ∧
      hasFlag (mapWord f flags) flagsUser = hasFlag flags.1 flagsUser := by
  have hword : mapWord f flags = frameAddress f ||| (flags.1 ||| flagsPresent) := by
    rw [mapWord, frameAddress_pageMask hf, BitVec.or_assoc]
  have hbits := flagBits_or flags.2 (by decide : flagsPresent &&& _ = _)
  rw [hword, frameOf_join hf hbits, present_join hf, hasFlag_rw, hasFlag_user,
    hasFlag_rw, hasFlag_user, getLsbD_join hf _ (by decide),
    getLsbD_join hf _ (by decide), BitVec.getLsbD_or, BitVec.getLsbD_or,
    BitVec.getLsbD_or]
  simp [flagsPresent]

theorem zeroWord_spec {f : Nat} (hf : f < 2 ^ 40) (flags : Flags) :
    present (zeroWord f flags) = true ∧ frameOf (zeroWord f flags) = f ∧
      hasFlag (zeroWord f flags) flagsRw = false ∧
      hasFlag (zeroWord f flags) flagsCow =
        (hasFlag flags.1 flagsRw || hasFlag flags.1 flagsCow) := by
  set cow := if hasFlag flags.1 flagsRw then flagsCow else 0#64 with hcow
  have hcowBits : cow &&& ~~~flagsMask = 0#64 := by
    rw [hcow]
    split <;> decide
  have hword : zeroWord f flags = frameAddress f |||
      ((flags.1 &&& ~~~flagsRw) ||| (flagsPresent ||| cow)) := by
    rw [zeroWord, frameAddress_pageMask hf, BitVec.or_assoc, BitVec.or_assoc]
  have hbits := flagBits_or (flagBits_and flags.2 (~~~flagsRw))
    (flagBits_or (by decide : flagsPresent &&& _ = _) hcowBits)
  have hlow : cow.getLsbD 1 = false := by
    rw [hcow]
    split <;> decide
  have hnine : cow.getLsbD 9 = hasFlag flags.1 flagsRw := by
    rw [hcow]
    split
    · rename_i h
      rw [h]
      decide
    · rename_i h
      rw [Bool.not_eq_true] at h
      rw [h]
      decide
  rw [hword, frameOf_join hf hbits, present_join hf, hasFlag_rw,
    hasFlag_cow (frameAddress f ||| _), getLsbD_join hf _ (by decide),
    getLsbD_join hf _ (by decide), hasFlag_cow]
  simp only [BitVec.getLsbD_or, BitVec.getLsbD_and, BitVec.getLsbD_not, hlow,
    hnine]
  simp [flagsPresent, flagsRw, Bool.or_comm]

/-! ### Regions -/

/-- The pages a region of `n` rounds covers. -/
def InPages (vaddr n a : Nat) : Prop :=
  vaddr / pageSize ≤ a / pageSize ∧ a / pageSize < vaddr / pageSize + n

instance (vaddr n a : Nat) : Decidable (InPages vaddr n a) :=
  inferInstanceAs (Decidable (_ ∧ _))

theorem inPages_succ (vaddr n a : Nat) :
    InPages vaddr (n + 1) a ↔
      a / pageSize = (vaddr + n * pageSize) / pageSize ∨ InPages vaddr n a := by
  simp only [InPages, pageSize]
  omega

theorem not_inPages_next (vaddr n : Nat) : ¬ InPages vaddr n (vaddr + n * pageSize) := by
  rintro ⟨-, hhi⟩
  rw [Nat.add_mul_div_right _ _ (by decide)] at hhi
  exact Nat.lt_irrefl _ hhi

/-- `alloc_region` keeps the counts exact and maps each page of the region with
the flags asked for. -/
theorem allocRegion_spec {vaddr size : Nat}
    (hc : Counted s held ((4, root) :: rest)) (hfit : vaddr + size ≤ lowerHalf)
    (h : allocRegion s root vaddr size flags = .ok s') :
    Counted s' held ((4, root) :: rest) ∧
      s'.usablePageCount = s.usablePageCount ∧ s'.zeroPage = s.zeroPage ∧
      ∀ a < lowerHalf,
        if InPages vaddr (pageRounds vaddr (pageAlign (vaddr + size))) a then
          ∃ f < 2 ^ 40, pte s' root a = some (mapWord f flags)
        else pte s' root a = pte s root a := by
  refine allocLoop_rule (fun n st => st.usablePageCount = s.usablePageCount ∧
    st.zeroPage = s.zeroPage ∧ ∀ a < lowerHalf,
      if InPages vaddr n a then ∃ f < 2 ^ 40, pte st root a = some (mapWord f flags)
      else pte st root a = pte s root a) hc hfit ?_ ?_ ?_ h
  · rintro k st st' - hgrow ⟨husable, hzp, hpte⟩
    refine ⟨hgrow.usable.trans husable, hgrow.zero.trans hzp, fun a ha => ?_⟩
    have hsame : pte st' root a = pte st root a :=
      hgrow.leaf (4, root) (by simp) _ (vpath_inRange ha)
    rw [hsame]
    exact hpte a ha
  · rintro k st e f st₁ hcst ⟨husable, hzp, hpte⟩ hk hleaf
    rw [bind_ok] at hleaf
    obtain ⟨⟨g, st₂⟩, hget, hleaf⟩ := hleaf
    obtain ⟨rfl, hrest⟩ := Prod.mk.inj (Except.ok.inj hleaf)
    obtain ⟨rfl, rfl⟩ := Prod.mk.inj hrest
    obtain ⟨hlt, hzero, rfl⟩ := getAvailableAddress_ok hget
    have hg40 := Nat.lt_of_lt_of_le hlt st.usable_le
    obtain ⟨hpres, htarget, -⟩ := mapWord_spec hg40 flags
    refine ⟨⟨hpres, htarget, hlt, by omega, _, rfl⟩, ?_⟩
    intro st' _ hset _
    refine ⟨hset.usable.trans husable, hset.zero.trans hzp, fun a ha => ?_⟩
    have haddr := round_lt_lowerHalf hfit hk
    rw [hset.pte haddr ha]
    by_cases heq : a / pageSize = (vaddr + k * pageSize) / pageSize
    · rw [if_pos heq, if_pos ((inPages_succ vaddr k a).mpr (Or.inl heq))]
      exact ⟨g, hg40, rfl⟩
    · have hiff : InPages vaddr (k + 1) a ↔ InPages vaddr k a := by
        rw [inPages_succ, or_iff_right heq]
      rw [if_neg heq]
      simp only [hiff]
      exact hpte a ha
  · refine ⟨rfl, rfl, fun a _ => ?_⟩
    rw [if_neg]
    simp only [InPages]
    omega

/-- `alloc_mmio_region` onto allocated frames keeps the counts exact. -/
theorem allocMmioRegion_spec {vaddr paddr size : Nat}
    (hc : Counted s held ((4, root) :: rest)) (hfit : vaddr + size ≤ lowerHalf)
    (hframes : ∀ k < pageRounds vaddr (pageAlign (vaddr + size)),
      paddr + k < s.usablePageCount ∧ s.memoryBitmap (paddr + k) ≠ 0 ∧
        s.memoryBitmap (paddr + k) + 1 < 2 ^ 32)
    (h : allocMmioRegion s root vaddr paddr size flags = .ok s') :
    Counted s' held ((4, root) :: rest) ∧
      s'.usablePageCount = s.usablePageCount ∧ s'.zeroPage = s.zeroPage := by
  refine And.imp_right (fun hI => ⟨hI.1, hI.2.1⟩) (allocLoop_rule (fun n st =>
    st.usablePageCount = s.usablePageCount ∧ st.zeroPage = s.zeroPage ∧
    ∀ f, s.memoryBitmap f ≠ 0 → st.memoryBitmap f =
      s.memoryBitmap f + if paddr ≤ f ∧ f < paddr + n then 1 else 0)
    hc hfit ?_ ?_ ?_ h)
  · rintro k st st' - hgrow ⟨husable, hzp, hbitmap⟩
    refine ⟨hgrow.usable.trans husable, hgrow.zero.trans hzp, fun f hf => ?_⟩
    rw [hgrow.bitmap f, hbitmap f hf]
    rw [hbitmap f hf]
    omega
  · rintro k st e f st₁ hcst ⟨husable, hzp, hbitmap⟩ hk hleaf
    obtain ⟨rfl, hrest⟩ := Prod.mk.inj (Except.ok.inj hleaf)
    obtain ⟨rfl, rfl⟩ := Prod.mk.inj hrest
    have hframe : paddr + (vaddr + k * pageSize - vaddr) / pageSize =
        paddr + k := by
      simp only [pageSize]
      omega
    rw [hframe]
    obtain ⟨hlt, hused, hroom⟩ := hframes k hk
    have hk40 : paddr + k < 2 ^ 40 := Nat.lt_of_lt_of_le hlt s.usable_le
    obtain ⟨hpres, htarget, -⟩ := mapWord_spec hk40 flags
    have hnow := hbitmap _ hused
    rw [if_neg (by omega)] at hnow
    refine ⟨⟨hpres, htarget, husable ▸ hlt, by omega, _, rfl⟩, ?_⟩
    intro st' _ hset hadd
    refine ⟨hset.usable.trans husable, hset.zero.trans hzp, fun g hg => ?_⟩
    rw [hadd g, hbitmap g hg]
    split <;> split <;> split <;> omega
  · refine ⟨rfl, rfl, fun f _ => ?_⟩
    rw [if_neg (by omega), Nat.add_zero]

/-- What mapping the zero page over a region of `n` pages does. -/
structure ZeroMapped (root : Nat) (rest : List (Nat × Nat)) (vaddr n : Nat)
    (flags : Flags) (s s' : PhysMem) : Prop where
  usable : s'.usablePageCount = s.usablePageCount
  zero : s'.zeroPage = s.zeroPage
  pte : ∀ a < lowerHalf, pte s' root a =
    if InPages vaddr n a then some (zeroWord s.zeroPage flags)
    else pte s root a
  elsewhere : ∀ x ∈ rest, ∀ q, InRange q →
    leafWord pageFormat s'.mem q x.1 x.2 = leafWord pageFormat s.mem q x.1 x.2
  bitmap : ∀ f, s.memoryBitmap f ≠ 0 → s'.memoryBitmap f =
    s.memoryBitmap f + if s.zeroPage = f then n else 0
  tables : ∀ f < s.usablePageCount, s.memoryBitmap f ≠ 0 →
    forestTables pageFormat s'.mem ((4, root) :: rest) f =
      forestTables pageFormat s.mem ((4, root) :: rest) f
  data : ∀ f < s.usablePageCount, s.memoryBitmap f ≠ 0 →
    forestTables pageFormat s.mem ((4, root) :: rest) f = 0 →
      s'.mem f = s.mem f

theorem ZeroMapped.start (root : Nat) (rest : List (Nat × Nat)) (vaddr : Nat)
    (flags : Flags) (s : PhysMem) :
    ZeroMapped root rest vaddr 0 flags s s := by
  refine ⟨rfl, rfl, ?_, fun _ _ _ _ => rfl, ?_, fun _ _ _ => rfl,
    fun _ _ _ _ => rfl⟩
  · intro a _
    rw [if_neg]
    simp only [InPages]
    omega
  · intro f _
    rw [ite_self, Nat.add_zero]

theorem ZeroMapped.grows {vaddr n : Nat} (h : ZeroMapped root rest vaddr n flags s s')
    (hgrow : Grows ((4, root) :: rest) s' s'') :
    ZeroMapped root rest vaddr n flags s s'' := by
  have hused : ∀ f, s.memoryBitmap f ≠ 0 → s'.memoryBitmap f ≠ 0 := by
    intro f hf
    rw [h.bitmap f hf]
    omega
  refine ⟨hgrow.usable.trans h.usable, hgrow.zero.trans h.zero, ?_, ?_, ?_,
    ?_, ?_⟩
  · intro a ha
    rw [← h.pte a ha]
    exact hgrow.leaf (4, root) (by simp) _ (vpath_inRange ha)
  · intro x hx q hq
    exact (hgrow.leaf x (by simp [hx]) q hq).trans (h.elsewhere x hx q hq)
  · intro f hf
    rw [hgrow.bitmap f (hused f hf), h.bitmap f hf]
  · intro f hlt hf
    rw [hgrow.tables f (h.usable ▸ hlt) (hused f hf), h.tables f hlt hf]
  · intro f hlt hf htab
    rw [hgrow.data f (h.usable ▸ hlt) (hused f hf)
      ((h.tables f hlt hf).trans htab), h.data f hlt hf htab]

theorem ZeroMapped.next {vaddr n : Nat} (h : ZeroMapped root rest vaddr n flags s s')
    (haddr : vaddr + n * pageSize < lowerHalf)
    (hset : LeafSet root rest (vpath (vaddr + n * pageSize))
      (some (zeroWord s.zeroPage flags)) s' s'')
    (hadd : ∀ f, s''.memoryBitmap f =
      s'.memoryBitmap f + if s.zeroPage = f then 1 else 0) :
    ZeroMapped root rest vaddr (n + 1) flags s s'' := by
  refine ⟨hset.usable.trans h.usable, hset.zero.trans h.zero, ?_, ?_, ?_,
    ?_, ?_⟩
  · intro a ha
    rw [hset.pte haddr ha, h.pte a ha]
    by_cases heq : a / pageSize = (vaddr + n * pageSize) / pageSize
    · rw [if_pos heq, if_pos ((inPages_succ vaddr n a).mpr (Or.inl heq))]
    · have hiff : InPages vaddr (n + 1) a ↔ InPages vaddr n a := by
        rw [inPages_succ, or_iff_right heq]
      rw [if_neg heq]
      simp only [hiff]
  · intro x hx q hq
    exact (hset.elsewhere x hx q hq).trans (h.elsewhere x hx q hq)
  · intro f hf
    rw [hadd f, h.bitmap f hf]
    split <;> omega
  · intro f hlt hf
    rw [hset.tables f, h.tables f hlt hf]
  · intro f hlt hf htab
    rw [hset.data f ((h.tables f hlt hf).trans htab), h.data f hlt hf htab]

/-- `alloc_zero_region` maps the zero page over the region and counts it once
for each page. -/
theorem allocZeroRegion_spec {vaddr size : Nat}
    (hc : Counted s held ((4, root) :: rest)) (hpin : held s.zeroPage = 1)
    (hfit : vaddr + size ≤ lowerHalf)
    (hroom : s.memoryBitmap s.zeroPage +
      pageRounds vaddr (pageAlign (vaddr + size)) < 2 ^ 32)
    (h : allocZeroRegion s root vaddr size flags = .ok s') :
    Counted s' held ((4, root) :: rest) ∧
      ZeroMapped root rest vaddr (pageRounds vaddr (pageAlign (vaddr + size)))
        flags s s' := by
  have hzlt := hc.held_lt s.zeroPage (by omega)
  have hzused : s.memoryBitmap s.zeroPage ≠ 0 := by
    rw [hc.exact _ hzlt]
    omega
  have hz40 := Nat.lt_of_lt_of_le hzlt s.usable_le
  obtain ⟨hpres, htarget, -⟩ := zeroWord_spec hz40 flags
  refine allocLoop_rule (fun n st => ZeroMapped root rest vaddr n flags s st)
    hc hfit (fun k st st' _ hgrow hI => hI.grows hgrow) ?_
    (ZeroMapped.start _ _ _ _ _) h
  rintro k st e f st₁ hcst hI hk hleaf
  obtain ⟨rfl, hrest⟩ := Prod.mk.inj (Except.ok.inj hleaf)
  obtain ⟨rfl, rfl⟩ := Prod.mk.inj hrest
  rw [hI.zero]
  have hnow := hI.bitmap _ hzused
  rw [if_pos rfl] at hnow
  refine ⟨⟨hpres, htarget, hI.usable ▸ hzlt, by omega, _, rfl⟩, ?_⟩
  intro st' _ hset hadd
  exact hI.next (round_lt_lowerHalf hfit hk) hset hadd

end GlitchedOS
