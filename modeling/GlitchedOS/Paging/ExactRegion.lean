/-
`alloc_region` on any range of either half, aligned or not: which pages it maps, to what,
and that no other page changes.  The end of its loop, `PAGE_ALIGN(vaddr + size)`, is one page
off for an empty range within a page, and it wraps for a range that reaches the last page of
the address space.
-/
import GlitchedOS.Paging.WholeTree

namespace GlitchedOS

open Radix

variable {s s' : PhysMem} {root vaddr size n : Nat} {flags : Flags}

/-- Two canonical addresses take the same path when they lie in the same page. -/
theorem canonical_samePage {a b : Nat} (ha : Canonical a) (hb : Canonical b) :
    SamePage (vpath a) (vpath b) ↔ b / pageSize = a / pageSize := by
  simp only [Canonical, lowerHalf] at ha hb
  exact samePage_iff (by omega)

/-- A canonical address whose next page is in the address space. -/
structure NextPage (addr : Nat) : Prop where
  canonical : Canonical addr
  next : addr + pageSize < 2 ^ 64

theorem NextPage.advance_idx {c : Cursor} {addr : Nat} (haddr : NextPage addr)
    (hidx : c.idx = getPageEntry addr) : c.advance.idx = getPageEntry (addr + pageSize) := by
  obtain ⟨hcanonical, hnext⟩ := haddr
  simp only [Canonical, lowerHalf, pageSize] at hcanonical hnext
  exact Cursor.advance_idx_of (by omega) hidx

/-- What `n` rounds of `alloc_region` from the state `s` have built. -/
structure Building (s : PhysMem) (root vaddr : Nat) (flags : Flags) (n : Nat) (st : PhysMem) :
    Prop where
  tree : TableTree st 4 root
  usable : st.usablePageCount = s.usablePageCount
  bitmap : ∀ f, s.memoryBitmap f ≠ 0 → st.memoryBitmap f ≠ 0
  fresh : ∀ a, Canonical a → InPages vaddr n a → pte s root a = none
  mapped : ∀ a, Canonical a → InPages vaddr n a → ∃ f, pte st root a = some (mapWord f flags) ∧
    f < s.usablePageCount ∧ s.memoryBitmap f = 0 ∧ st.memoryBitmap f ≠ 0 ∧
    tableCount wholeFormat st.mem 4 root f = 0 ∧ st.mem f = s.mem f
  untouched : ∀ f < s.usablePageCount, st.memoryBitmap f = 0 → st.mem f = s.mem f
  distinct : ∀ a b f, Canonical a → Canonical b → InPages vaddr n a → InPages vaddr n b →
    f < s.usablePageCount → pte st root a = some (mapWord f flags) →
    pte st root b = some (mapWord f flags) → a / pageSize = b / pageSize
  others : ∀ a, Canonical a → ¬ InPages vaddr n a → pte st root a = pte s root a

namespace Building

variable {st st' : PhysMem}

theorem start (ht : TableTree s 4 root) : Building s root vaddr flags 0 s where
  tree := ht
  usable := rfl
  bitmap _ hf := hf
  fresh a _ hin := by
    rw [InPages] at hin
    omega
  mapped a _ hin := by
    rw [InPages] at hin
    omega
  untouched _ _ _ := rfl
  distinct a _ _ _ _ hin := by
    rw [InPages] at hin
    omega
  others _ _ _ := rfl

theorem builds (h : Building s root vaddr flags n st) (ht : TableTree st' 4 root)
    (hb : Builds 4 root st st') : Building s root vaddr flags n st' where
  tree := ht
  usable := hb.usable.trans h.usable
  bitmap f hf := by
    rw [hb.bitmap f (h.bitmap f hf)]
    exact h.bitmap f hf
  fresh := h.fresh
  mapped a ha hin := by
    obtain ⟨f, hpte, hlt, hfree, hused, hzero, hmem⟩ := h.mapped a ha hin
    refine ⟨f, hb.pte.trans hpte, hlt, hfree, by rwa [hb.bitmap f hused],
      hb.noTable hused hzero, ?_⟩
    rw [hb.data f (h.usable ▸ hlt) hused hzero, hmem]
  untouched f hlt hfree := by
    have hfree' : st.memoryBitmap f = 0 := by
      by_contra hused
      exact hused ((hb.bitmap f hused).symm.trans hfree)
    rw [hb.free f (h.usable ▸ hlt) hfree, h.untouched f hlt hfree']
  distinct a b f ha hb' hina hinb hlt hpa hpb :=
    h.distinct a b f ha hb' hina hinb hlt (hb.pte.symm.trans hpa) (hb.pte.symm.trans hpb)
  others a ha hout := hb.pte.trans (h.others a ha hout)

theorem mapWord_inj {f g : Nat} (hf : f < 2 ^ 40) (hg : g < 2 ^ 40)
    (h : mapWord f flags = mapWord g flags) : f = g := by
  rw [← (mapWord_spec hf flags).2.1, h, (mapWord_spec hg flags).2.1]

theorem next (h : Building s root vaddr flags n st) {f : Nat} (ht : TableTree st' 4 root)
    (haddr : Canonical (vaddr + n * pageSize))
    (habs : pte st root (vaddr + n * pageSize) = none) (hlt : f < st.usablePageCount)
    (hfree : st.memoryBitmap f = 0) (husable : st'.usablePageCount = st.usablePageCount)
    (htables : ∀ g, tableCount wholeFormat st'.mem 4 root g =
      tableCount wholeFormat st.mem 4 root g)
    (hbitmap : ∀ g, st'.memoryBitmap g = st.memoryBitmap g + if f = g then 1 else 0)
    (hmem : ∀ g < st.usablePageCount, st.memoryBitmap g = 0 ∨
      tableCount wholeFormat st.mem 4 root g = 0 → st'.mem g = st.mem g)
    (hpte : ∀ a, Canonical a → pte st' root a =
      if a / pageSize = (vaddr + n * pageSize) / pageSize then some (mapWord f flags)
      else pte st root a) :
    Building s root vaddr flags (n + 1) st' := by
  have hlt' : f < s.usablePageCount := h.usable ▸ hlt
  have h40 : ∀ g, g < s.usablePageCount → g < 2 ^ 40 := fun g hg =>
    Nat.lt_of_lt_of_le hg s.usable_le
  have hunused : s.memoryBitmap f = 0 := by
    by_contra hused
    exact h.bitmap f hused hfree
  have hzero : tableCount wholeFormat st.mem 4 root f = 0 := by
    by_contra hne
    exact h.tree.used f hlt (Nat.pos_of_ne_zero hne) hfree
  have hkeep : ∀ g, st.memoryBitmap g ≠ 0 → st'.memoryBitmap g ≠ 0 := by
    intro g hg
    rw [hbitmap]
    omega
  -- a page mapped before has another frame
  have hcases : ∀ a g, Canonical a → InPages vaddr (n + 1) a → g < s.usablePageCount →
      pte st' root a = some (mapWord g flags) →
      (a / pageSize = (vaddr + n * pageSize) / pageSize ∧ g = f) ∨
        (g ≠ f ∧ InPages vaddr n a ∧ pte st root a = some (mapWord g flags)) := by
    intro a g ha hin hg hmapped
    rw [hpte a ha] at hmapped
    split at hmapped
    · rename_i heq
      exact Or.inl ⟨heq, (mapWord_inj (h40 f hlt') (h40 g hg) (Option.some.inj hmapped)).symm⟩
    · rename_i hne
      have hin' := ((inPages_succ vaddr n a).mp hin).resolve_left hne
      refine Or.inr ⟨?_, hin', hmapped⟩
      rintro rfl
      obtain ⟨g', hg', hlt'', -, hused, -, -⟩ := h.mapped a ha hin'
      obtain rfl := mapWord_inj (h40 _ hg) (h40 _ hlt'') (Option.some.inj (hmapped.symm.trans hg'))
      exact hused hfree
  refine ⟨ht, husable.trans h.usable, fun g hg => hkeep g (h.bitmap g hg), fun a ha hin => ?_,
    fun a ha hin => ?_, fun g hg hunused' => ?_, fun a b g ha hb hina hinb hg hpa hpb => ?_,
    fun a ha hout => ?_⟩
  · rcases (inPages_succ vaddr n a).mp hin with heq | hin
    · have hout : ¬ InPages vaddr n a := by
        rw [InPages, heq]
        exact not_inPages_next vaddr n
      rw [← h.others a ha hout, ← habs]
      exact leafWord_path_congr pageFormat ((canonical_samePage haddr ha).mpr heq)
    · exact h.fresh a ha hin
  · rw [hpte a ha]
    by_cases heq : a / pageSize = (vaddr + n * pageSize) / pageSize
    · rw [if_pos heq]
      refine ⟨f, rfl, hlt', hunused, ?_, (htables f).trans hzero, ?_⟩
      · rw [hbitmap, if_pos rfl]
        exact Nat.succ_ne_zero _
      · rw [hmem f hlt (Or.inl hfree), h.untouched f hlt' hfree]
    · rw [if_neg heq]
      obtain ⟨g, hg, hglt, hgfree, hgused, hgzero, hgmem⟩ :=
        h.mapped a ha (((inPages_succ vaddr n a).mp hin).resolve_left heq)
      refine ⟨g, hg, hglt, hgfree, hkeep g hgused, (htables g).trans hgzero, ?_⟩
      rw [hmem g (h.usable ▸ hglt) (Or.inr hgzero), hgmem]
  · have hfree' : st.memoryBitmap g = 0 := by
      rw [hbitmap] at hunused'
      omega
    rw [hmem g (h.usable ▸ hg) (Or.inl hfree'), h.untouched g hg hfree']
  · rcases hcases a g ha hina hg hpa with ⟨heqa, rfl⟩ | ⟨hne, hina', hpa'⟩
    · rcases hcases b g hb hinb hg hpb with ⟨heqb, -⟩ | ⟨hne, -⟩
      · exact heqa.trans heqb.symm
      · exact absurd rfl hne
    · rcases hcases b g hb hinb hg hpb with ⟨-, heq⟩ | ⟨-, hinb', hpb'⟩
      · exact absurd heq hne
      · exact h.distinct a b g ha hb hina' hinb' hg hpa' hpb'
  · rw [hpte a ha, if_neg fun heq => hout ((inPages_succ vaddr n a).mpr (Or.inl heq))]
    exact h.others a ha fun hin => hout ((inPages_succ vaddr n a).mpr (Or.inr hin))

end Building

/-- A round panics because of a mapped page only on a mapped page. -/
theorem TableTree.alreadyMapped {addr : Nat} {c : Cursor} (ht : TableTree s 4 root)
    (hv : c.Valid s.mem root addr)
    (herror : allocRound (regionLeaf flags) root addr c s = .error .alreadyMapped) :
    pte s root addr ≠ none := by
  simp only [allocRound, hv.idx, bind_error] at herror
  obtain herror | ⟨⟨pdpt, sa⟩, ha, herror⟩ := herror
  · exact absurd rfl (cachedTable_error herror)
  obtain herror | ⟨⟨pd, sb⟩, hb, herror⟩ := herror
  · exact absurd rfl (cachedTable_error herror)
  obtain herror | ⟨⟨pt, sc⟩, hcc, herror⟩ := herror
  · exact absurd rfl (cachedTable_error herror)
  obtain ⟨htc, hbuilds, hw⟩ := ht.walk hv ha hb hcc
  obtain ⟨-, hbuilds', hwo⟩ := htc.orWords hw
  dsimp only at herror
  split at herror
  · rename_i hpres
    have hsome := hwo.leafWord.trans (if_pos hpres)
    rw [← (hbuilds.trans hbuilds').pte]
    exact fun hnone => Option.some_ne_none _ (hsome.symm.trans hnone)
  · rw [bind_error] at herror
    obtain herror | ⟨_, -, herror⟩ := herror
    · exact absurd rfl (regionLeaf_error herror)
    · cases herror

/-- The cursor of each round stands where a walk of its own would. -/
theorem regionRounds_building (ht : TableTree s 4 root) :
    ∀ {n : Nat}, (∀ k < n, NextPage (vaddr + k * pageSize)) → ∀ {c : Cursor} {s' : PhysMem},
      loopRounds (regionRound root vaddr flags) n (Cursor.start vaddr, s) = .ok (c, s') →
      Building s root vaddr flags n s' ∧ c.Valid s'.mem root (vaddr + n * pageSize)
  | 0, _, c, s', hok => by
      obtain ⟨rfl, rfl⟩ := Prod.mk.inj (Except.ok.inj hok)
      rw [Nat.zero_mul, Nat.add_zero]
      exact ⟨.start ht, Cursor.valid_start _ _ _⟩
  | n + 1, hfit, c, s', hok => by
      rw [loopRounds, bind_ok] at hok
      obtain ⟨⟨c₀, st⟩, hrounds, hround⟩ := hok
      obtain ⟨hst, hv⟩ := regionRounds_building ht
        (fun k hk => hfit k (Nat.lt_succ_of_lt hk)) hrounds
      have haddr := hfit n (Nat.lt_succ_self n)
      obtain ⟨s₁, e, f, s₂, pdpt, pd, pt, ht₁, hbuilds, hw, habs, hleaf, rfl, rfl⟩ :=
        hst.tree.round hv hround
      rw [regionLeaf, bind_ok] at hleaf
      obtain ⟨⟨f, s₂⟩, hget, hleaf⟩ := hleaf
      obtain ⟨rfl, hrest⟩ := Prod.mk.inj (Except.ok.inj hleaf)
      obtain ⟨rfl, rfl⟩ := Prod.mk.inj hrest
      obtain ⟨hlt, hfree, rfl⟩ := getAvailableAddress_ok hget
      obtain ⟨hpres, htarget, -⟩ := mapWord_spec (Nat.lt_of_lt_of_le hlt s₁.usable_le) flags
      obtain ⟨ht', hw', htables, hbitmap, hmem, hpte⟩ :=
        ht₁.mapLeaf hw ⟨hpres, htarget, hlt, by omega, f + 1, rfl⟩
      refine ⟨(hst.builds ht₁ hbuilds).next ht' haddr.canonical (hw.pte_none habs) hlt hfree rfl
        htables hbitmap hmem fun a ha => ?_, ?_⟩
      · split
        · rename_i heq
          exact (hpte a).1 ((canonical_samePage haddr.canonical ha).mpr heq)
        · rename_i hne
          exact (hpte a).2 fun hsame => hne ((canonical_samePage haddr.canonical ha).mp hsame)
      · rw [Nat.succ_mul, ← Nat.add_assoc]
        exact Cursor.advance_valid hv.idx (haddr.advance_idx hv.idx) hw'

/-- A store to the pages of a region changes neither a page table nor a free frame. -/
theorem Building.dataPages {st : PhysMem} (h : Building s root vaddr flags n st) :
    DataPages st root (fun a => Canonical a ∧ InPages vaddr n a)
      (fun f => 0 < tableCount wholeFormat st.mem 4 root f ∨ st.memoryBitmap f = 0) where
  stable s' hsame a ha := by
    rw [translate, translate, if_pos ha.1, if_pos ha.1, pte_whole, pte_whole]
    congr 1
    refine leafWord_congr wholeFormat (vpath_wholePath a) fun f hf i => ?_
    rw [hsame.mem f (Or.inl hf)]
  data a f ha htrans := by
    rw [translate, if_pos ha.1] at htrans
    obtain ⟨g, hg, hlt, -, hused, hzero, -⟩ := h.mapped a ha.1 ha.2
    rw [hg, Option.map_some,
      (mapWord_spec (Nat.lt_of_lt_of_le hlt s.usable_le) flags).2.1] at htrans
    obtain rfl := Option.some.inj htrans
    exact fun hT => hT.elim (fun hpos => Nat.ne_of_gt hpos hzero) hused
  inj a b f ha hb hta htb := by
    rw [translate, if_pos ha.1] at hta
    rw [translate, if_pos hb.1] at htb
    obtain ⟨g, hg, hlt, -⟩ := h.mapped a ha.1 ha.2
    obtain ⟨g', hg', hlt', -⟩ := h.mapped b hb.1 hb.2
    rw [hg, Option.map_some, (mapWord_spec (Nat.lt_of_lt_of_le hlt s.usable_le) flags).2.1] at hta
    rw [hg', Option.map_some,
      (mapWord_spec (Nat.lt_of_lt_of_le hlt' s.usable_le) flags).2.1] at htb
    obtain rfl := Option.some.inj hta
    obtain rfl := Option.some.inj htb
    exact h.distinct a b _ ha.1 hb.1 ha.2 hb.2 hlt hg hg'

/-- `[vaddr, vaddr + size)` stays in one half of the canonical addresses. -/
def InHalf (vaddr size : Nat) : Prop :=
  vaddr + size ≤ lowerHalf ∨
    (2 ^ 64 - lowerHalf ≤ vaddr ∧ vaddr < 2 ^ 64 ∧ vaddr + size ≤ 2 ^ 64)

instance (vaddr size : Nat) : Decidable (InHalf vaddr size) :=
  inferInstanceAs (Decidable (_ ∨ _))

/-- The page of `a` overlaps `[vaddr, vaddr + size)`. -/
def Overlaps (vaddr size a : Nat) : Prop :=
  ∃ b, vaddr ≤ b ∧ b < vaddr + size ∧ b / pageSize = a / pageSize

/-- The end of the loop is the end of the last page of the range. -/
def RightEnd (vaddr size : Nat) : Prop :=
  if size = 0 then vaddr % pageSize = 0 ∨ 2 ^ 64 - pageSize < vaddr
  else vaddr + size ≤ 2 ^ 64 - pageSize

instance (vaddr size : Nat) : Decidable (RightEnd vaddr size) :=
  inferInstanceAs (Decidable (ite _ _ _))

theorem overlaps_iff (vaddr size a : Nat) : Overlaps vaddr size a ↔ size ≠ 0 ∧
    vaddr / pageSize ≤ a / pageSize ∧ a / pageSize ≤ (vaddr + size - 1) / pageSize := by
  rw [Overlaps, pageSize]
  constructor
  · rintro ⟨b, hlo, hhi, hpage⟩
    omega
  · rintro ⟨hsize, hlo, hhi⟩
    by_cases hfirst : a / 4096 = vaddr / 4096
    · exact ⟨vaddr, Nat.le_refl _, by omega, hfirst.symm⟩
    · exact ⟨a / 4096 * 4096, by omega, by omega, Nat.mul_div_cancel _ (by decide)⟩

theorem regionRounds_empty (hunaligned : vaddr % pageSize ≠ 0)
    (hlt : vaddr ≤ 2 ^ 64 - pageSize) : regionRounds vaddr 0 = 1 := by
  rw [pageSize] at hunaligned hlt
  rw [regionRounds, pageRounds, pageAlign64, pageSize]
  omega

theorem regionRounds_wrap (hhalf : InHalf vaddr size)
    (hend : 2 ^ 64 - pageSize < vaddr + size) : regionRounds vaddr size = 0 := by
  rw [InHalf, lowerHalf] at hhalf
  rw [pageSize] at hend
  rw [regionRounds, pageRounds, pageAlign64, pageSize]
  omega

/-- With the right end the rounds are the pages of the range. -/
theorem inPages_regionRounds (hend : RightEnd vaddr size) (a : Nat) :
    InPages vaddr (regionRounds vaddr size) a ↔ Overlaps vaddr size a := by
  rw [overlaps_iff, InPages]
  rw [RightEnd] at hend
  rw [regionRounds, pageRounds, pageAlign64]
  rw [pageSize] at *
  split at hend <;> omega

theorem regionRounds_nextPage (hhalf : InHalf vaddr size) :
    ∀ k < regionRounds vaddr size, NextPage (vaddr + k * pageSize) := by
  intro k hk
  rw [InHalf, lowerHalf] at hhalf
  rw [regionRounds, pageRounds, pageAlign64] at hk
  constructor
  · rw [Canonical, lowerHalf]
    rw [pageSize] at *
    omega
  · rw [pageSize] at *
    omega

/-- Exactly the pages of `[vaddr, vaddr + size)` are mapped, with the flags asked for, to
frames that were free, each to its own and none to a page table. -/
structure BuiltExactly (s : PhysMem) (root vaddr size : Nat) (flags : Flags) (s' : PhysMem) :
    Prop where
  mapped : ∀ a, Overlaps vaddr size a → ∃ e, pte s' root a = some e ∧
    e &&& flagsMask = flags.1 ||| flagsPresent ∧ frameOf e < s.usablePageCount ∧
    s.memoryBitmap (frameOf e) = 0 ∧ tableCount wholeFormat s'.mem 4 root (frameOf e) = 0
  distinct : ∀ a b e e', Overlaps vaddr size a → Overlaps vaddr size b →
    pte s' root a = some e → pte s' root b = some e' → frameOf e = frameOf e' →
    a / pageSize = b / pageSize
  others : ∀ a, Canonical a → ¬ Overlaps vaddr size a → pte s' root a = pte s root a

/-- Frames enough: the call does not panic for want of one. -/
def FramesSuffice (s : PhysMem) (root vaddr size : Nat) (flags : Flags) : Prop :=
  ∀ reason, allocRegion64 s root vaddr size flags = .error reason → reason = .alreadyMapped

theorem framesSuffice_of_roomy {k : Nat} (root vaddr : Nat) (flags : Flags) (hroomy : Roomy s k)
    (hframes : k + 4 * regionRounds vaddr size ≤ s.usablePageCount) :
    FramesSuffice s root vaddr size flags := by
  intro reason herror
  rw [allocRegion64] at herror
  obtain halready | ⟨c, s', hok, -⟩ := regionRounds_roomy root vaddr flags hroomy hframes
  · rw [halready] at herror
    exact (Except.error.inj herror).symm
  · rw [hok] at herror
    cases herror

theorem mapWord_flags {f : Nat} (hf : f < 2 ^ 40) (flags : Flags) :
    mapWord f flags &&& flagsMask = flags.1 ||| flagsPresent := by
  have haddress : frameAddress f &&& flagsMask = 0#64 := by
    apply BitVec.eq_of_getLsbD_eq
    intro i hi
    rw [BitVec.getLsbD_and, getLsbD_flagsMask, getLsbD_frameAddress hf, BitVec.getLsbD_zero]
    by_cases hlow : 12 ≤ i
    · by_cases hhigh : i < 52
      · simp
        omega
      · rw [Nat.testBit_lt_two_pow (Nat.lt_of_lt_of_le hf
          (Nat.pow_le_pow_right (by decide) (by omega : 40 ≤ i - 12))), Bool.and_false,
          Bool.false_and]
    · simp [hlow]
  have hflags : flags.1 &&& flagsMask = flags.1 := by
    have hall := address_or_flags flags.1
    rw [pageTableToAddress, flags.2, BitVec.zero_or] at hall
    exact hall
  have hpresent : flagsPresent &&& flagsMask = flagsPresent := by decide
  rw [mapWord, frameAddress_pageMask hf, BitVec.and_or_distrib_right, BitVec.and_or_distrib_right,
    haddress, hflags, hpresent, BitVec.zero_or]

theorem Overlaps.canonical {a : Nat} (h : Overlaps vaddr size a) (hhalf : InHalf vaddr size) :
    Canonical a := by
  obtain ⟨b, hlo, hhi, hpage⟩ := h
  rw [InHalf, lowerHalf] at hhalf
  rw [pageSize] at hpage
  rw [Canonical, lowerHalf]
  omega

theorem Building.builtExactly (hhalf : InHalf vaddr size)
    (h : Building s root vaddr flags (regionRounds vaddr size) s')
    (hpages : ∀ a, InPages vaddr (regionRounds vaddr size) a ↔ Overlaps vaddr size a) :
    BuiltExactly s root vaddr size flags s' where
  mapped a hin := by
    obtain ⟨f, hpte, hlt, hfree, -, hzero, -⟩ :=
      h.mapped a (hin.canonical hhalf) ((hpages a).mpr hin)
    have h40 := Nat.lt_of_lt_of_le hlt s.usable_le
    have htarget := (mapWord_spec h40 flags).2.1
    refine ⟨_, hpte, mapWord_flags h40 flags, ?_⟩
    rw [htarget]
    exact ⟨hlt, hfree, hzero⟩
  distinct a b e e' hina hinb hpa hpb heq := by
    have ha := hina.canonical hhalf
    have hb := hinb.canonical hhalf
    have hina' := (hpages a).mpr hina
    have hinb' := (hpages b).mpr hinb
    obtain ⟨f, hf, hlt, -⟩ := h.mapped a ha hina'
    obtain ⟨g, hg, hlt', -⟩ := h.mapped b hb hinb'
    obtain rfl := Option.some.inj (hf.symm.trans hpa)
    obtain rfl := Option.some.inj (hg.symm.trans hpb)
    rw [(mapWord_spec (Nat.lt_of_lt_of_le hlt s.usable_le) flags).2.1,
      (mapWord_spec (Nat.lt_of_lt_of_le hlt' s.usable_le) flags).2.1] at heq
    subst heq
    exact h.distinct a b f ha hb hina' hinb' hlt hpa hpb
  others a ha hout := h.others a ha fun hin => hout ((hpages a).mp hin)

theorem allocRegion64_building (ht : TableTree s 4 root)
    (hfit : ∀ k < regionRounds vaddr size, NextPage (vaddr + k * pageSize))
    (hok : allocRegion64 s root vaddr size flags = .ok s') :
    Building s root vaddr flags (regionRounds vaddr size) s' := by
  rw [allocRegion64, bind_ok] at hok
  obtain ⟨⟨c, s₁⟩, hloop, hok⟩ := hok
  obtain rfl := Except.ok.inj hok
  exact (regionRounds_building ht hfit hloop).1

theorem allocRegion64_returns (ht : TableTree s 4 root) (hhalf : InHalf vaddr size)
    (habs : ∀ a, InPages vaddr (regionRounds vaddr size) a → pte s root a = none)
    (hframes : FramesSuffice s root vaddr size flags) :
    ∃ s', allocRegion64 s root vaddr size flags = .ok s' := by
  cases hcall : allocRegion64 s root vaddr size flags with
  | ok s' => exact ⟨s', rfl⟩
  | error reason =>
      exfalso
      obtain rfl := hframes reason hcall
      rw [allocRegion64, bind_error] at hcall
      obtain hloop | ⟨_, -, hnone⟩ := hcall
      · obtain ⟨m, hm, ⟨c, st⟩, hok, hround⟩ := loopRounds_error hloop
        have hfit := regionRounds_nextPage hhalf
        obtain ⟨hst, hv⟩ := regionRounds_building ht
          (fun k hk => hfit k (Nat.lt_trans hk hm)) hok
        refine hst.tree.alreadyMapped hv hround ?_
        rw [hst.others _ (hfit m hm).canonical (not_inPages_next vaddr m)]
        refine habs _ ⟨?_, ?_⟩ <;> rw [Nat.add_mul_div_right _ _ (by decide)] <;> omega
      · cases hnone

theorem not_builtExactly_empty (ht : TableTree s 4 root) (hhalf : InHalf vaddr 0)
    (hunaligned : vaddr % pageSize ≠ 0) (hlt : vaddr ≤ 2 ^ 64 - pageSize)
    (hok : allocRegion64 s root vaddr 0 flags = .ok s') :
    ¬ BuiltExactly s root vaddr 0 flags s' := by
  intro hbuilt
  have hbuilding := allocRegion64_building ht (regionRounds_nextPage hhalf) hok
  have hin : InPages vaddr (regionRounds vaddr 0) vaddr := by
    rw [regionRounds_empty hunaligned hlt]
    exact ⟨Nat.le_refl _, Nat.lt_succ_self _⟩
  have hcanonical : Canonical vaddr := by
    rw [InHalf, lowerHalf] at hhalf
    rw [pageSize] at hunaligned
    rw [Canonical, lowerHalf]
    omega
  have hempty : ¬ Overlaps vaddr 0 vaddr := fun h => ((overlaps_iff vaddr 0 vaddr).mp h).1 rfl
  obtain ⟨f, hpte, -⟩ := hbuilding.mapped vaddr hcanonical hin
  rw [hbuilt.others vaddr hcanonical hempty, hbuilding.fresh vaddr hcanonical hin] at hpte
  cases hpte

/-- A range that reaches the last page gets no page mapped. -/
theorem not_builtExactly_wrap (hhalf : InHalf vaddr size) (hsize : size ≠ 0)
    (hend : 2 ^ 64 - pageSize < vaddr + size) (habs : pte s root vaddr = none)
    (hok : allocRegion64 s root vaddr size flags = .ok s') :
    ¬ BuiltExactly s root vaddr size flags s' := by
  intro hbuilt
  rw [allocRegion64, regionRounds_wrap hhalf hend] at hok
  obtain rfl := Except.ok.inj hok
  obtain ⟨e, hpte, -⟩ := hbuilt.mapped vaddr
    ((overlaps_iff vaddr size vaddr).mpr ⟨hsize, Nat.le_refl _, Nat.div_le_div_right (by omega)⟩)
  rw [habs] at hpte
  cases hpte

/-- `alloc_region` builds exactly the mapping asked for if and only if the end of its loop is
the end of the last page of the range. -/
theorem alloc_region_builds_exactly_iff (ht : TableTree s 4 root) (hhalf : InHalf vaddr size)
    (habs : ∀ a, Overlaps vaddr size a → pte s root a = none)
    (hframes : FramesSuffice s root vaddr size flags) :
    (∃ s', allocRegion64 s root vaddr size flags = .ok s' ∧
      BuiltExactly s root vaddr size flags s') ↔ RightEnd vaddr size := by
  constructor
  · rintro ⟨s', hok, hbuilt⟩
    rw [RightEnd]
    split
    · rename_i hsize
      subst hsize
      by_contra hend
      rw [not_or, Nat.not_lt] at hend
      exact not_builtExactly_empty ht hhalf hend.1 hend.2 hok hbuilt
    · rename_i hsize
      by_contra hend
      have hfirst : Overlaps vaddr size vaddr :=
        ⟨vaddr, Nat.le_refl _, Nat.lt_add_of_pos_right (Nat.pos_of_ne_zero hsize), rfl⟩
      exact not_builtExactly_wrap hhalf hsize (Nat.not_le.mp hend) (habs _ hfirst) hok hbuilt
  · intro hend
    have hpages := inPages_regionRounds hend
    obtain ⟨s', hok⟩ := allocRegion64_returns ht hhalf
      (fun a hin => habs a ((hpages a).mp hin)) hframes
    have hbuilding := allocRegion64_building ht (regionRounds_nextPage hhalf) hok
    exact ⟨s', hok, hbuilding.builtExactly hhalf hpages⟩

theorem emptyMachine_absent {frames : Nat} (hframes : frames ≤ 2 ^ 40) (t i : Nat) :
    present ((emptyMachine frames hframes).mem t i) = false := by
  have hword : (emptyMachine frames hframes).mem t i = 0#64 := rfl
  rw [hword]
  exact present_zero

theorem emptyMachine_tree {frames : Nat} (hframes : frames ≤ 2 ^ 40) :
    TableTree (emptyMachine frames hframes) 4 1 := by
  have hcount : ∀ f, tableCount wholeFormat (emptyMachine frames hframes).mem 4 1 f =
      if 1 = f then 1 else 0 := fun f =>
    weight_of_empty wholeFormat _ _ fun i _ => emptyMachine_absent hframes 1 i
  refine ⟨fun f => ?_, fun f _ hf => ?_⟩
  · rw [hcount]
    split <;> decide
  · rw [hcount] at hf
    split at hf
    · rename_i heq
      subst heq
      exact Nat.one_ne_zero
    · cases hf

theorem emptyMachine_pte {frames : Nat} (hframes : frames ≤ 2 ^ 40) (a : Nat) :
    pte (emptyMachine frames hframes) 1 a = none :=
  leafWord_of_empty pageFormat (emptyMachine_absent hframes 1 _)

theorem emptyMachine_framesSuffice (vaddr : Nat) (flags : Flags)
    (hsize : 2 + 4 * regionRounds vaddr size ≤ 64) :
    FramesSuffice (emptyMachine 64 (by decide)) 1 vaddr size flags :=
  framesSuffice_of_roomy 1 vaddr flags (emptyMachine_roomy _) hsize

/-- A range of the upper half across a boundary of 1 GiB. -/
theorem alloc_region_builds_exactly_across :
    ∃ s', allocRegion64 (emptyMachine 64 (by decide)) 1 0xFFFF80003FFFF800 0x1000
        ⟨flagsRw, by decide⟩ = .ok s' ∧
      BuiltExactly (emptyMachine 64 (by decide)) 1 0xFFFF80003FFFF800 0x1000
        ⟨flagsRw, by decide⟩ s' :=
  (alloc_region_builds_exactly_iff (emptyMachine_tree _) (by decide)
    (fun a _ => emptyMachine_pte _ a) (emptyMachine_framesSuffice _ _ (by decide))).mpr (by decide)

/-- Nothing is mapped at the last page of the address space, and an empty range within a
page gets this page mapped. -/
theorem alloc_region_not_exact :
    let s := emptyMachine 64 (by decide)
    let flags : Flags := ⟨flagsRw, by decide⟩
    (TableTree s 4 1 ∧ ∀ a, pte s 1 a = none) ∧
    (InHalf 0xFFFFFFFFFFFFF000 0x1000 ∧ FramesSuffice s 1 0xFFFFFFFFFFFFF000 0x1000 flags ∧
      ¬ ∃ s', allocRegion64 s 1 0xFFFFFFFFFFFFF000 0x1000 flags = .ok s' ∧
        BuiltExactly s 1 0xFFFFFFFFFFFFF000 0x1000 flags s') ∧
    InHalf 0x400800 0 ∧ FramesSuffice s 1 0x400800 0 flags ∧
      ¬ ∃ s', allocRegion64 s 1 0x400800 0 flags = .ok s' ∧
        BuiltExactly s 1 0x400800 0 flags s' := by
  intro s flags
  have ht : TableTree s 4 1 := emptyMachine_tree _
  have hlast : InHalf 0xFFFFFFFFFFFFF000 0x1000 := by decide
  have hempty : InHalf 0x400800 0 := by decide
  refine ⟨⟨ht, emptyMachine_pte _⟩,
    ⟨hlast, emptyMachine_framesSuffice _ _ (by decide), ?_⟩,
    hempty, emptyMachine_framesSuffice _ _ (by decide), ?_⟩
  · rintro ⟨s', hok, hbuilt⟩
    exact not_builtExactly_wrap hlast (by decide) (by decide) (emptyMachine_pte _ _) hok hbuilt
  · rintro ⟨s', hok, hbuilt⟩
    exact not_builtExactly_empty ht hempty (by decide) (by decide) hok hbuilt

end GlitchedOS
