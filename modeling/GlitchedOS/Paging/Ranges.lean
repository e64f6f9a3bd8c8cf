/-
Ranges of pages in an address space whose other pages may be shared.  `alloc_region`
gives each page of the range a frame of its own; bytes stored there are seen at their
address only; `free_region` unmaps the range and nothing else.
-/
import GlitchedOS.Paging.Region

namespace GlitchedOS

open Radix

variable {s s' : PhysMem} {held : Nat → Nat} {rest : List (Nat × Nat)} {root : Nat}

/-- What `alloc_region` has done after `n` pages of its range. -/
structure RegionBuilt (root vaddr : Nat) (flags : Flags) (s : PhysMem) (n : Nat)
    (st : PhysMem) : Prop where
  usable : st.usablePageCount = s.usablePageCount
  mapped : ∀ a < lowerHalf, InPages vaddr n a → pte s root a = none ∧
    ∃ f < s.usablePageCount, s.memoryBitmap f = 0 ∧ st.memoryBitmap f = 1 ∧
      pte st root a = some (mapWord f flags)
  other : ∀ a < lowerHalf, ¬ InPages vaddr n a → pte st root a = pte s root a
  bitmap : ∀ f, s.memoryBitmap f ≠ 0 → st.memoryBitmap f = s.memoryBitmap f

namespace RegionBuilt

variable {vaddr n : Nat} {flags : Flags} {st st' : PhysMem}

theorem start : RegionBuilt root vaddr flags s 0 s := by
  refine ⟨rfl, fun a _ h => ?_, fun _ _ _ => rfl, fun _ _ => rfl⟩
  simp only [InPages] at h
  omega

theorem grows (h : RegionBuilt root vaddr flags s n st)
    (hgrow : Grows ((4, root) :: rest) st st') : RegionBuilt root vaddr flags s n st' := by
  refine ⟨hgrow.usable.trans h.usable, fun a ha hin => ?_, fun a ha hin => ?_, fun f hf => ?_⟩
  · obtain ⟨hnone, f, hlt, hfree, hone, hpte⟩ := h.mapped a ha hin
    refine ⟨hnone, f, hlt, hfree, ?_, (hgrow.pte ha).trans hpte⟩
    rw [hgrow.bitmap f (by omega), hone]
  · rw [hgrow.pte ha, h.other a ha hin]
  · have hst := h.bitmap f hf
    rw [hgrow.bitmap f (by omega), hst]

theorem next {f : Nat} (h : RegionBuilt root vaddr flags s n st)
    (haddr : vaddr + n * pageSize < lowerHalf)
    (habs : pte st root (vaddr + n * pageSize) = none)
    (hlt : f < st.usablePageCount) (hfree : st.memoryBitmap f = 0)
    (hset : LeafSet root rest (vpath (vaddr + n * pageSize)) (some (mapWord f flags)) st st')
    (hbitmap : ∀ g, st'.memoryBitmap g = st.memoryBitmap g + if f = g then 1 else 0) :
    RegionBuilt root vaddr flags s (n + 1) st' := by
  have hpage := not_inPages_next vaddr n
  have hbefore : s.memoryBitmap f = 0 := by
    by_contra hused
    exact hused ((h.bitmap f hused).symm.trans hfree)
  have hkeep : ∀ g, st.memoryBitmap g ≠ 0 → st'.memoryBitmap g = st.memoryBitmap g := by
    intro g hg
    have hne : f ≠ g := by
      rintro rfl
      exact hg hfree
    rw [hbitmap, if_neg hne, Nat.add_zero]
  refine ⟨hset.usable.trans h.usable, fun a ha hin => ?_, fun a ha hin => ?_, fun g hg => ?_⟩
  · rw [hset.pte haddr ha]
    by_cases heq : a / pageSize = (vaddr + n * pageSize) / pageSize
    · rw [if_pos heq]
      refine ⟨?_, f, h.usable ▸ hlt, hbefore, ?_, rfl⟩
      · rw [← h.other a ha (by simp only [InPages] at hpage ⊢; rwa [heq]),
          pte_congr ha haddr heq, habs]
      · rw [hbitmap, hfree, if_pos rfl]
    · rw [if_neg heq]
      obtain ⟨hnone, g, hg, hgfree, hone, hpte⟩ :=
        h.mapped a ha (((inPages_succ vaddr n a).mp hin).resolve_left heq)
      exact ⟨hnone, g, hg, hgfree, by rw [hkeep g (by omega), hone], hpte⟩
  · rw [inPages_succ, not_or] at hin
    rw [hset.pte haddr ha, if_neg hin.1, h.other a ha hin.2]
  · have hst := h.bitmap g hg
    rw [hkeep g (by omega), hst]

end RegionBuilt

theorem allocRegion64_built {vaddr size : Nat} {flags : Flags}
    (hc : Counted s held ((4, root) :: rest))
    (hfit : ∀ k < regionRounds vaddr size, vaddr + k * pageSize < lowerHalf)
    (h : allocRegion64 s root vaddr size flags = .ok s') :
    Counted s' held ((4, root) :: rest) ∧
      RegionBuilt root vaddr flags s (regionRounds vaddr size) s' := by
  rw [allocRegion64, bind_ok] at h
  obtain ⟨⟨c, s₁⟩, hloop, h⟩ := h
  obtain rfl := Except.ok.inj h
  have hrule : Counted s₁ held ((4, root) :: rest) ∧
      RegionBuilt root vaddr flags s (regionRounds vaddr size) s₁ ∧
      c.Valid s₁.mem root (vaddr + regionRounds vaddr size * pageSize) := by
    refine allocRounds_rule (RegionBuilt root vaddr flags s) hc
      (fun k st st' _ hgrow hst => hst.grows hgrow) _ hfit ?_ .start c s₁ hloop
    intro k st e f st₁ hst hbuilt hk habs hleaf
    rw [regionLeaf, bind_ok] at hleaf
    obtain ⟨⟨g, st₂⟩, hget, hleaf⟩ := hleaf
    obtain ⟨rfl, hrest⟩ := Prod.mk.inj (Except.ok.inj hleaf)
    obtain ⟨rfl, rfl⟩ := Prod.mk.inj hrest
    obtain ⟨hlt, hzero, rfl⟩ := getAvailableAddress_ok hget
    obtain ⟨hpres, htarget, -⟩ := mapWord_spec (Nat.lt_of_lt_of_le hlt st.usable_le) flags
    refine ⟨⟨hpres, htarget, hlt, by omega, _, rfl⟩, fun st' _ hset hbitmap => ?_⟩
    exact hbuilt.next (hfit k hk) habs hlt hzero hset hbitmap
  exact ⟨hrule.1, hrule.2.1⟩

/-- A page in a frame of count `1` is one that stores reach by its address only. -/
theorem Counted.dataPages {A : Nat → Prop} (hc : Counted s held ((4, root) :: rest))
    (hlow : ∀ a, A a → a < lowerHalf)
    (halone : ∀ a e, A a → pte s root a = some e → s.memoryBitmap (frameOf e) = 1) :
    DataPages s root A (fun f => 0 < forestTables pageFormat s.mem ((4, root) :: rest) f) where
  stable s' hsame a ha := by
    rw [UserData.translate_eq (hlow a ha), UserData.translate_eq (hlow a ha)]
    congr 1
    apply leafWord_congr pageFormat (vpath_inRange (hlow a ha))
    intro f hf i
    have hle : tableCount pageFormat s.mem 4 root f ≤
        forestTables pageFormat s.mem ((4, root) :: rest) f :=
      tableCount_le_forestTables pageFormat s.mem (x := (4, root)) (by simp) f
    rw [hsame.mem f (Nat.lt_of_lt_of_le hf hle)]
  data a f ha h := by
    rw [UserData.translate_eq (hlow a ha)] at h
    obtain ⟨e, he, rfl⟩ := Option.map_eq_some_iff.mp h
    rw [hc.not_table_of_alone (hlow a ha) he (halone a e ha he)]
    exact Nat.lt_irrefl 0
  inj a b f ha hb h h' := by
    rw [UserData.translate_eq (hlow a ha)] at h
    rw [UserData.translate_eq (hlow b hb)] at h'
    obtain ⟨e, he, rfl⟩ := Option.map_eq_some_iff.mp h
    obtain ⟨e', he', heq⟩ := Option.map_eq_some_iff.mp h'
    exact (hc.unique_page (hlow a ha) he (halone a e ha he) (hlow b hb) he' heq).symm

/-- Zeros stored over the pages of a range that is aligned. -/
theorem RegionBuilt.zeroed {vaddr n : Nat} {flags : Flags}
    (h : RegionBuilt root vaddr flags s n s') (hc : Counted s' held ((4, root) :: rest))
    (halign : vaddr % pageSize = 0) (hfit : vaddr + n * pageSize ≤ lowerHalf) :
    ∃ st, storeBytes root vaddr (fun _ => 0) (n * pageSize) s' = some st ∧
      Counted st held ((4, root) :: rest) ∧ (∀ a < lowerHalf, pte st root a = pte s' root a) ∧
      ∀ a, vaddr ≤ a → a < vaddr + n * pageSize → virtByte st root a = some 0 := by
  set A : Nat → Prop := fun a => a < lowerHalf ∧ InPages vaddr n a with hA
  have hd : DataPages s' root A
      (fun f => 0 < forestTables pageFormat s'.mem ((4, root) :: rest) f) := by
    refine hc.dataPages (fun a ha => ha.1) fun a e ha he => ?_
    obtain ⟨-, f, hlt, -, hone, hpte⟩ := h.mapped a ha.1 ha.2
    rw [hpte] at he
    rw [← Option.some.inj he, (mapWord_spec (Nat.lt_of_lt_of_le hlt s.usable_le) flags).2.1, hone]
  have hin : ∀ k < n * pageSize, A (vaddr + k) := by
    intro k hk
    refine ⟨by omega, ?_⟩
    simp only [InPages, pageSize] at halign hk ⊢
    omega
  have hmapped : ∀ k < n * pageSize, translate s' root (vaddr + k) ≠ none := by
    intro k hk
    obtain ⟨-, f, -, -, -, hpte⟩ := h.mapped _ (hin k hk).1 (hin k hk).2
    rw [UserData.translate_eq (hin k hk).1, hpte]
    exact Option.some_ne_none _
  obtain ⟨st, hstore, hsame, hbytes⟩ := hd.storeBytes vaddr (fun _ => 0)
    (hfit.trans (by decide)) hin hmapped
  obtain ⟨⟨m, rfl⟩, hmem⟩ := hsame
  refine ⟨_, hstore, ?_, fun a ha => ?_, fun a hlo hhi => ?_⟩
  · exact hc.memCongr (fun f hf i => congrFun (hmem f hf) i) rfl rfl
  · apply leafWord_congr pageFormat (vpath_inRange ha)
    intro f hf i
    have hle : tableCount pageFormat s'.mem 4 root f ≤
        forestTables pageFormat s'.mem ((4, root) :: rest) f :=
      tableCount_le_forestTables pageFormat s'.mem (x := (4, root)) (by simp) f
    exact congrFun (hmem f (Nat.lt_of_lt_of_le hf hle)) i
  · obtain ⟨k, rfl⟩ := Nat.exists_eq_add_of_le hlo
    rw [hbytes _ (hin k (by omega)), if_pos ⟨hlo, hhi⟩]

/-- `free_region` in 64 bits. -/
def freeRegion64 (s : PhysMem) (root vaddr size : Nat) : PhysMem :=
  loopPure (fun k s => (freePage s root (vaddr + k * pageSize)).2) (regionRounds vaddr size) s

theorem freeRegion64_pte {vaddr size : Nat} (hc : Counted s held ((4, root) :: rest))
    (hvaddr : vaddr ≠ 0)
    (hfit : ∀ k < regionRounds vaddr size, vaddr + k * pageSize < lowerHalf) :
    Counted (freeRegion64 s root vaddr size) held ((4, root) :: rest) ∧
      ∀ a < lowerHalf, pte (freeRegion64 s root vaddr size) root a =
        if InPages vaddr (regionRounds vaddr size) a then none else pte s root a := by
  rw [freeRegion64]
  generalize regionRounds vaddr size = n at *
  induction n with
  | zero =>
      refine ⟨hc, fun a _ => ?_⟩
      rw [if_neg (by simp only [InPages]; omega)]
      rfl
  | succ n ih =>
      obtain ⟨hc', hpte⟩ := ih fun k hk => hfit k (Nat.lt_succ_of_lt hk)
      have haddr := hfit n (Nat.lt_succ_self n)
      rw [loopPure]
      set st := loopPure (fun k s => (freePage s root (vaddr + k * pageSize)).2) n s
      refine ⟨freePage_counted hc' haddr, fun a ha => ?_⟩
      have hpage : pte (freePage st root (vaddr + n * pageSize)).2 root a =
          if a / pageSize = (vaddr + n * pageSize) / pageSize then none else pte st root a := by
        cases h : pte st root (vaddr + n * pageSize) with
        | none =>
            rw [freePage_unmapped h]
            split
            next heq => rw [pte_congr ha haddr heq, h]
            next => rfl
        | some e => exact (freePage_spec hc' (by omega) haddr h).2.pte a ha
      rw [hpage, hpte a ha]
      by_cases heq : a / pageSize = (vaddr + n * pageSize) / pageSize
      · rw [if_pos heq, if_pos ((inPages_succ vaddr n a).mpr (Or.inl heq))]
      · rw [if_neg heq]
        simp only [inPages_succ, heq, false_or]

end GlitchedOS
