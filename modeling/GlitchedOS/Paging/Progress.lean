/-
When the allocation loops do not panic: as long as the frames from some point on
are free, each round finds the frames it needs.
-/
import GlitchedOS.Paging.Alloc

namespace GlitchedOS

open Radix

variable {s s' : PhysMem} {held : Nat → Nat} {rest : List (Nat × Nat)}

/-- Frame `0` is taken, every frame from `k` on is free, and the search for a
free frame gets there. -/
structure Roomy (s : PhysMem) (k : Nat) : Prop where
  hint : s.firstUsable ≤ k
  free : ∀ f, k ≤ f → f < s.usablePageCount → s.memoryBitmap f = 0
  low : s.memoryBitmap 0 ≠ 0

theorem Roomy.mono {k k' : Nat} (h : Roomy s k) (hk : k ≤ k') : Roomy s k' :=
  ⟨h.hint.trans hk, fun f hf => h.free f (hk.trans hf), h.low⟩

theorem Roomy.writeWord {k : Nat} (h : Roomy s k) (t i : Nat) (e : Word) :
    Roomy (s.writeWord t i e) k :=
  ⟨h.hint, h.free, h.low⟩

theorem findAvailable_exists {bitmap : Nat → Nat} {j : Nat}
    (hzero : bitmap j = 0) : ∀ {n i : Nat}, i ≤ j → j < i + n →
      ∃ f, f ≤ j ∧ findAvailable bitmap n i = some f
  | 0, i, hlo, hhi => by omega
  | n + 1, i, hlo, hhi => by
      rw [findAvailable]
      split
      · exact ⟨i, hlo, rfl⟩
      · rename_i hne
        have hij : i ≠ j := by
          rintro rfl
          exact hne hzero
        exact findAvailable_exists hzero (by omega) (by omega)

theorem getAvailableAddress_progress {k : Nat} (h : Roomy s k)
    (hk : k < s.usablePageCount) :
    ∃ f, f ≤ k ∧ f ≠ 0 ∧
      getAvailableAddress s = .ok (f, { s with firstUsable := f + 1 }) := by
  obtain ⟨f, hle, hfind⟩ := findAvailable_exists
    (h.free k (Nat.le_refl _) hk) (n := s.usablePageCount - s.firstUsable)
    h.hint (by have := h.hint; omega)
  have hget : getAvailableAddress s =
      .ok (f, { s with firstUsable := f + 1 }) := by
    rw [getAvailableAddress, hfind]
  refine ⟨f, hle, ?_, hget⟩
  rintro rfl
  exact h.low (getAvailableAddress_ok hget).2.1

theorem allocatePhysicalPage_progress {k : Nat} (h : Roomy s k)
    (hk : k < s.usablePageCount) :
    ∃ f s', allocatePhysicalPage s = .ok (f, s') ∧ f ≠ 0 ∧
      Roomy s' (k + 1) ∧ s'.usablePageCount = s.usablePageCount := by
  obtain ⟨f, hle, hne, hget⟩ := getAvailableAddress_progress h hk
  refine ⟨f, (PhysMem.incCount { s with firstUsable := f + 1 } f).zeroFrame f,
    ?_, hne, ⟨?_, ?_, ?_⟩, rfl⟩
  · rw [allocatePhysicalPage, hget]
    rfl
  · change f + 1 ≤ k + 1
    omega
  · intro g hg hlt
    change (if g = f then _ else s.memoryBitmap g) = 0
    rw [if_neg (by omega)]
    exact h.free g (by omega) hlt
  · change (if 0 = f then _ else s.memoryBitmap 0) ≠ 0
    rw [if_neg (Ne.symm hne)]
    exact h.low

theorem tableAt_progress {k : Nat} (h : Roomy s k) (hk : k < s.usablePageCount)
    (t i : Nat) : ∃ c s', tableAt s t i = .ok (c, s') ∧ Roomy s' (k + 1) ∧
      s'.usablePageCount = s.usablePageCount := by
  rw [tableAt]
  split
  · exact ⟨_, s, rfl, h.mono (by omega), rfl⟩
  · obtain ⟨f, s₁, halloc, hne, hroomy, husable⟩ :=
      allocatePhysicalPage_progress h hk
    rw [halloc]
    change ∃ c s', (if f = 0 then _ else _) = _ ∧ _
    rw [if_neg hne]
    exact ⟨_, _, rfl, ⟨hroomy.hint, hroomy.free, hroomy.low⟩, husable⟩

/-- The frames a round may take for tables. -/
def tableCost (changed : Bool) : Nat := if changed then 3 else 0

theorem cachedTable_progress {c : Cursor} {k : Nat} (root : Nat) (h : Roomy s k)
    (hk : k + tableCost c.pdChanged ≤ s.usablePageCount)
    (hpdpt : c.pdptChanged = false → c.pml4Changed = false)
    (hpd : c.pdChanged = false → c.pdptChanged = false) :
    ∃ pdpt sa pd sb pt sc,
      cachedTable c.pml4Changed c.pdpt s root c.idx.pml4Index =
        .ok (pdpt, sa) ∧
      cachedTable c.pdptChanged c.pd sa pdpt c.idx.pdptIndex = .ok (pd, sb) ∧
      cachedTable c.pdChanged c.pt sb pd c.idx.pdIndex = .ok (pt, sc) ∧
      Roomy sc (k + tableCost c.pdChanged) ∧
      sc.usablePageCount = s.usablePageCount := by
  have hcached : ∀ (changed : Bool) (cached : Nat) (s : PhysMem) (k t i : Nat),
      Roomy s k → k < s.usablePageCount → ∃ c s',
        cachedTable changed cached s t i = .ok (c, s') ∧ Roomy s' (k + 1) ∧
          s'.usablePageCount = s.usablePageCount := by
    intro changed cached s k t i h hk
    cases changed with
    | true => exact tableAt_progress h hk t i
    | false => exact ⟨cached, s, rfl, h.mono (by omega), rfl⟩
  cases hchanged : c.pdChanged with
  | false =>
      rw [hpd hchanged, hpdpt (hpd hchanged)]
      exact ⟨c.pdpt, s, c.pd, s, c.pt, s, rfl, rfl, rfl, h, rfl⟩
  | true =>
      rw [hchanged] at hk
      change k + 3 ≤ _ at hk
      obtain ⟨pdpt, sa, ha, hra, hua⟩ := hcached c.pml4Changed c.pdpt s k root
        c.idx.pml4Index h (by omega)
      obtain ⟨pd, sb, hb, hrb, hub⟩ := hcached c.pdptChanged c.pd sa (k + 1)
        pdpt c.idx.pdptIndex hra (by omega)
      obtain ⟨pt, sc, hcc, hrc, huc⟩ := hcached true c.pt sb (k + 1 + 1) pd
        c.idx.pdIndex hrb (by omega)
      exact ⟨pdpt, sa, pd, sb, pt, sc, ha, hb, hcc, hrc,
        (huc.trans hub).trans hua⟩

theorem allocRound_progress (leaf : LeafSource) {root addr k : Nat} {c : Cursor}
    (hc : Counted s held ((4, root) :: rest)) (haddr : addr < lowerHalf)
    (hv : c.Valid s.mem root addr) (h : Roomy s k)
    (hk : k + tableCost c.pdChanged ≤ s.usablePageCount)
    (habs : pte s root addr = none) :
    ∃ s₁ pdpt pd pt, Counted s₁ held ((4, root) :: rest) ∧
      Grows ((4, root) :: rest) s s₁ ∧ Walked s₁.mem root addr pdpt pd pt ∧
      present (s₁.mem pt (vpath addr 1)) = false ∧
      Roomy s₁ (k + tableCost c.pdChanged) ∧
      ∀ e f s₂, leaf addr s₁ = .ok (e, f, s₂) →
        allocRound leaf root addr c s = .ok
          (Cursor.advance { c with pdpt := pdpt, pd := pd, pt := pt },
            (s₂.writeWord pt (vpath addr 1) e).incCount f) := by
  obtain ⟨pdpt, sa, pd, sb, pt, sc, ha, hb, hcc, hroomy, -⟩ :=
    cachedTable_progress root h hk hv.pdptOrder hv.pdOrder
  have hidx := hv.idx
  obtain ⟨hcw, hgw, hw⟩ := cachedTable_walk hc haddr hv (hidx ▸ ha) (hidx ▸ hb)
    (hidx ▸ hcc)
  obtain ⟨hco, hgo, hwo⟩ := orWord_walk hcw haddr hw
  have hgrow := hgw.trans hgo
  set s₁ := orWord (orWord (orWord sc root (vpath addr 4) higherLevelFlags)
    pdpt (vpath addr 3) higherLevelFlags) pd (vpath addr 2) higherLevelFlags
    with hs₁
  have hnone : present (s₁.mem pt (vpath addr 1)) = false := by
    have hsame : pte s₁ root addr = pte s root addr :=
      hgrow.leaf (4, root) (by simp) _ (vpath_inRange haddr)
    rw [habs, pte, hwo.leafWord] at hsame
    by_contra hpres
    rw [Bool.not_eq_false] at hpres
    rw [if_pos hpres] at hsame
    cases hsame
  refine ⟨s₁, pdpt, pd, pt, hco, hgrow, hwo, hnone,
    ((hroomy.writeWord _ _ _).writeWord _ _ _).writeWord _ _ _, ?_⟩
  intro e f s₂ hleaf
  have hbody : allocRound leaf root addr c s =
      if present (s₁.mem pt (vpath addr 1)) then .error .alreadyMapped
      else (leaf addr s₁ >>= fun r => .ok
        (Cursor.advance { c with pdpt := pdpt, pd := pd, pt := pt },
          (r.2.2.writeWord pt (vpath addr 1) r.1).incCount r.2.1)) := by
    rw [allocRound, ha]
    change (cachedTable c.pdptChanged c.pd sa pdpt c.idx.pdptIndex >>= _) = _
    rw [hb]
    change (cachedTable c.pdChanged c.pt sb pd c.idx.pdIndex >>= _) = _
    rw [hcc]
    simp only [hidx, vpath_pt, vpath_pd, vpath_pdpt, vpath_pml4, hs₁]
    rfl
  rw [hbody, hnone, hleaf]
  rfl

/-- A new PT is looked for only in the first round and where the index of the PT
has wrapped. -/
theorem Cursor.advance_pdChanged {c : Cursor} {addr : Nat}
    (haddr : addr < lowerHalf) (hidx : c.idx = getPageEntry addr)
    (h : c.advance.pdChanged = true) : vpath (addr + pageSize) 1 = 0 := by
  rw [vpath_pt, ← Cursor.advance_idx haddr hidx]
  unfold Cursor.advance at h ⊢
  dsimp only at h ⊢
  split at h
  · cases h
  · rw [if_neg ‹_›]
    split at h
    · rw [if_pos ‹_›]
    · rw [if_neg ‹_›]
      split at h
      · rw [if_pos ‹_›]
      · rw [if_neg ‹_›]

/-- A round of `allocLoop`, for its number. -/
def allocLoopRound (leaf : LeafSource) (root vaddr k : Nat) :
    Cursor × PhysMem → Except Panic (Cursor × PhysMem)
  | (c, s) => allocRound leaf root (vaddr + k * pageSize) c s

/-- The loop does not panic when its pages are unmapped and the frames `B` allows
for after each round are there; `I` is an assertion about the rounds done, as in
`allocLoop_rule`. -/
theorem allocLoop_progress {leaf : LeafSource} {root vaddr size : Nat}
    (cost : Nat) (I : Nat → PhysMem → Prop) (B : Nat → Nat)
    (hc : Counted s held ((4, root) :: rest))
    (hfit : vaddr + size ≤ lowerHalf)
    (hgrow : ∀ k s s', Counted s held ((4, root) :: rest) →
      Grows ((4, root) :: rest) s s' → I k s → I k s')
    (hmap : ∀ k s e f s₁, Counted s held ((4, root) :: rest) → I k s →
      k < pageRounds vaddr (pageAlign (vaddr + size)) →
      leaf (vaddr + k * pageSize) s = .ok (e, f, s₁) →
        LeafOk s e f s₁ ∧ ∀ s', Counted s' held ((4, root) :: rest) →
          LeafSet root rest (vpath (vaddr + k * pageSize)) (some e) s s' →
          (∀ g, s'.memoryBitmap g =
            s.memoryBitmap g + if f = g then 1 else 0) → I (k + 1) s')
    (hstart : I 0 s)
    (habs : ∀ k s, k < pageRounds vaddr (pageAlign (vaddr + size)) → I k s →
      pte s root (vaddr + k * pageSize) = none)
    (hleaf : ∀ k s r, k < pageRounds vaddr (pageAlign (vaddr + size)) → I k s →
      Counted s held ((4, root) :: rest) → Roomy s r →
      r + cost ≤ s.usablePageCount → ∃ e f s₁,
        leaf (vaddr + k * pageSize) s = .ok (e, f, s₁) ∧
          ∀ t i, Roomy ((s₁.writeWord t i e).incCount f) (r + cost))
    (hB : ∀ k < pageRounds vaddr (pageAlign (vaddr + size)),
      B k + (if k = 0 ∨ vpath (vaddr + k * pageSize) 1 = 0 then 3 else 0) +
        cost ≤ B (k + 1))
    (hBu : B (pageRounds vaddr (pageAlign (vaddr + size))) ≤
      s.usablePageCount)
    (hroomy : Roomy s (B 0)) :
    ∃ s', allocLoop leaf s root vaddr size = .ok s' ∧
      Roomy s' (B (pageRounds vaddr (pageAlign (vaddr + size)))) := by
  set rounds := pageRounds vaddr (pageAlign (vaddr + size))
  have hBmono : ∀ k, k ≤ rounds → B k ≤ B rounds := by
    intro k hk
    obtain ⟨d, hd⟩ := Nat.exists_eq_add_of_le hk
    induction d generalizing k with
    | zero => rw [hd, Nat.add_zero]
    | succ d ih =>
        have := ih (k + 1) (by omega) (by omega)
        have := hB k (by omega)
        omega
  have hloop : ∀ n, n ≤ rounds → ∃ c₁ s₁, loopRounds (allocLoopRound leaf root vaddr) n
        (Cursor.start vaddr, s) = .ok (c₁, s₁) ∧
      Counted s₁ held ((4, root) :: rest) ∧ I n s₁ ∧
      c₁.Valid s₁.mem root (vaddr + n * pageSize) ∧ Roomy s₁ (B n) ∧
      s₁.usablePageCount = s.usablePageCount ∧
      (c₁.pdChanged = true → n = 0 ∨ vpath (vaddr + n * pageSize) 1 = 0) := by
    intro n
    induction n with
    | zero =>
        intro _
        refine ⟨Cursor.start vaddr, s, rfl, hc, hstart, ?_, hroomy, rfl,
          fun _ => Or.inl rfl⟩
        rw [Nat.zero_mul, Nat.add_zero]
        exact Cursor.valid_start _ _ _
    | succ n ih =>
        intro hn
        obtain ⟨c₀, s₀, hbefore, hc₀, hI₀, hv₀, hr₀, hu₀, hch₀⟩ :=
          ih (Nat.le_of_succ_le hn)
        have haddr := round_lt_lowerHalf hfit hn
        have hbudget := hB n hn
        have hcap := (hBmono (n + 1) hn).trans hBu
        have hcost : tableCost c₀.pdChanged ≤
            if n = 0 ∨ vpath (vaddr + n * pageSize) 1 = 0 then 3 else 0 := by
          rw [tableCost]
          split
          · rename_i hchanged
            rw [if_pos (hch₀ hchanged)]
          · exact Nat.zero_le _
        obtain ⟨sw, pdpt, pd, pt, hcw, hgw, hw, hnone, hrw, hround⟩ :=
          allocRound_progress leaf hc₀ haddr hv₀ hr₀ (by omega)
            (habs n s₀ hn hI₀)
        have hIw := hgrow n s₀ sw hc₀ hgw hI₀
        obtain ⟨e, f, sl, hok, hrl⟩ := hleaf n sw _ hn hIw hcw hrw
          (by rw [hgw.usable]; omega)
        obtain ⟨hlok, hnext⟩ := hmap n sw e f sl hcw hIw hn hok
        obtain ⟨hc₁, hset, hbitmap, hw₁⟩ := hcw.mapLeaf haddr hw hnone hlok
        have haddr' : vaddr + (n + 1) * pageSize =
            vaddr + n * pageSize + pageSize := by
          rw [Nat.succ_mul, Nat.add_assoc]
        refine ⟨Cursor.advance { c₀ with pdpt := pdpt, pd := pd, pt := pt }, _,
          ?_, hc₁, hnext _ hc₁ hset hbitmap, ?_,
          (hrl _ _).mono (by omega), (hset.usable.trans hgw.usable).trans hu₀,
          fun hchanged => Or.inr ?_⟩
        · rw [loopRounds, hbefore]
          exact hround e f sl hok
        · rw [haddr']
          exact Cursor.advance_valid hv₀.idx (Cursor.advance_idx haddr hv₀.idx) hw₁
        · rw [haddr']
          exact Cursor.advance_pdChanged
            (c := { c₀ with pdpt := pdpt, pd := pd, pt := pt }) haddr hv₀.idx
            hchanged
  obtain ⟨c₁, s₁, hend, -, -, -, hr, -, -⟩ := hloop rounds (Nat.le_refl _)
  refine ⟨s₁, ?_, hr⟩
  rw [allocLoop, bind_ok]
  exact ⟨(c₁, s₁), hend, rfl⟩

/-- `alloc_zero_region` over unmapped pages succeeds when there are frames for
its tables. -/
theorem allocZeroRegion_progress {root vaddr size r : Nat} (flags : Flags)
    (hc : Counted s held ((4, root) :: rest)) (hpin : held s.zeroPage = 1)
    (hzne : s.zeroPage ≠ 0)
    (hfit : vaddr + size ≤ lowerHalf) (halign : vpath vaddr 1 = 0)
    (hroom : s.memoryBitmap s.zeroPage +
      pageRounds vaddr (pageAlign (vaddr + size)) < 2 ^ 32)
    (habs : ∀ a < lowerHalf, pte s root a = none) (hroomy : Roomy s r)
    (hframes : r + 3 * ((pageRounds vaddr (pageAlign (vaddr + size)) + 511) /
      512) ≤ s.usablePageCount) :
    ∃ s', allocZeroRegion s root vaddr size flags = .ok s' ∧
      Roomy s' (r + 3 * ((pageRounds vaddr (pageAlign (vaddr + size)) + 511) /
        512)) := by
  have hzlt := hc.held_lt s.zeroPage (by omega)
  have hzused : s.memoryBitmap s.zeroPage ≠ 0 := by
    rw [hc.exact _ hzlt]
    omega
  have hz40 := Nat.lt_of_lt_of_le hzlt s.usable_le
  obtain ⟨hpres, htarget, -⟩ := zeroWord_spec hz40 flags
  refine allocLoop_progress 0
    (fun n st => n ≤ pageRounds vaddr (pageAlign (vaddr + size)) →
      ZeroMapped root rest vaddr n flags s st)
    (fun n => r + 3 * ((n + 511) / 512)) hc hfit
    (fun k st st' _ hgrow hI hk => (hI hk).grows hgrow) ?_
    (fun _ => ZeroMapped.start _ _ _ _ _) ?_ ?_ ?_ hframes hroomy
  · rintro k st e f st₁ hcst hI hk hleaf
    have hI := hI (Nat.le_of_lt hk)
    obtain ⟨rfl, hrest⟩ := Prod.mk.inj (Except.ok.inj hleaf)
    obtain ⟨rfl, rfl⟩ := Prod.mk.inj hrest
    rw [hI.zero]
    have hnow := hI.bitmap _ hzused
    rw [if_pos rfl] at hnow
    refine ⟨⟨hpres, htarget, hI.usable ▸ hzlt, by omega, _, rfl⟩, ?_⟩
    intro st' _ hset hadd _
    exact hI.next (round_lt_lowerHalf hfit hk) hset hadd
  · intro k st hk hI
    have haddr := round_lt_lowerHalf hfit hk
    rw [(hI (Nat.le_of_lt hk)).pte _ haddr, if_neg, habs _ haddr]
    simp only [InPages, pageSize]
    omega
  · intro k st q hk hI _ hr _
    have hI := hI (Nat.le_of_lt hk)
    have hnow := hI.bitmap _ hzused
    refine ⟨_, _, _, rfl, fun t i => ⟨hr.hint, fun f hf hlt => ?_, ?_⟩⟩
    · have hne : f ≠ st.zeroPage := by
        rintro rfl
        have := hr.free _ hf hlt
        rw [hI.zero] at this
        omega
      exact (if_neg hne).trans (hr.free f hf hlt)
    · change (if 0 = st.zeroPage then _ else _) ≠ 0
      rw [hI.zero, if_neg (Ne.symm hzne)]
      exact hr.low
  · intro k hk
    simp only [vpath, getPageEntry] at halign
    simp only [vpath, getPageEntry, pageSize]
    split <;> omega

/-- A region of `2 ^ 32 - 2` pages that starts with a PT of its own, and the page
after it. -/
def wrapStart : Nat := 2 ^ 21
def wrapSize : Nat := (2 ^ 32 - 2) * pageSize
def wrapNext : Nat := wrapStart + wrapSize

theorem wrap_rounds :
    pageRounds wrapStart (pageAlign (wrapStart + wrapSize)) = 2 ^ 32 - 2 ∧
      pageRounds wrapNext (pageAlign (wrapNext + pageSize)) = 1 := by
  decide

/-- Mapping the zero page `2 ^ 32 - 1` times takes its count back to `0`. -/
theorem zeroCount_wraps {root r : Nat} (flags : Flags)
    (hc : Counted s held ((4, root) :: rest)) (hpin : held s.zeroPage = 1)
    (hzne : s.zeroPage ≠ 0) (hone : s.memoryBitmap s.zeroPage = 1)
    (habs : ∀ a < lowerHalf, pte s root a = none) (hroomy : Roomy s r)
    (hframes : r + 3 * 2 ^ 23 + 3 ≤ s.usablePageCount) :
    ∃ s₁ s₂, allocZeroRegion s root wrapStart wrapSize flags = .ok s₁ ∧
      allocZeroRegion s₁ root wrapNext pageSize flags = .ok s₂ ∧
      s₂.zeroPage = s.zeroPage ∧ s₂.usablePageCount = s.usablePageCount ∧
      s₂.memoryBitmap s.zeroPage = 0 ∧
      Counted (s₂.setCount s.zeroPage (2 ^ 32)) held ((4, root) :: rest) ∧
      pte s₂ root wrapStart = some (zeroWord s.zeroPage flags) ∧
      pte s₂ root wrapNext = some (zeroWord s.zeroPage flags) ∧
      forestTables pageFormat s₂.mem ((4, root) :: rest) s.zeroPage = 0 ∧
      s₂.mem s.zeroPage = s.mem s.zeroPage := by
  have hzlt := hc.held_lt s.zeroPage (by omega)
  have hz40 := Nat.lt_of_lt_of_le hzlt s.usable_le
  obtain ⟨hpres, htarget, -⟩ := zeroWord_spec hz40 flags
  have hstart : wrapStart < lowerHalf := by decide
  have hnext : wrapNext < lowerHalf := by decide
  have hp := vpath_inRange hnext
  have hnotable : forestTables pageFormat s.mem ((4, root) :: rest)
      s.zeroPage = 0 := by
    have := hc.once s.zeroPage
    omega
  -- the large region still counts exactly
  obtain ⟨s₁, hok₁, hroomy₁⟩ := allocZeroRegion_progress flags hc
    hpin hzne (by decide : wrapStart + wrapSize ≤ lowerHalf) (by decide)
    (by rw [hone, wrap_rounds.1]; decide) habs hroomy
    (by rw [wrap_rounds.1]; omega)
  obtain ⟨hc₁, hmapped⟩ := allocZeroRegion_spec hc hpin (by decide)
    (by rw [hone, wrap_rounds.1]; decide) hok₁
  rw [wrap_rounds.1] at hmapped hroomy₁
  have hbitmap₁ : s₁.memoryBitmap s.zeroPage = 2 ^ 32 - 1 := by
    rw [hmapped.bitmap _ (by omega), if_pos rfl, hone]
    decide
  have habs₁ : pte s₁ root wrapNext = none := by
    rw [hmapped.pte _ hnext, if_neg (by decide), habs _ hnext]
  -- one page more
  obtain ⟨sw, pdpt, pd, pt, hcw, hgw, hw, hnone, -, hround⟩ :=
    allocRound_progress (fun _ s =>
        .ok (zeroWord s.zeroPage flags, s.zeroPage, s)) hc₁ hnext
      (Cursor.valid_start s₁.mem root wrapNext) hroomy₁
      (by
        rw [hmapped.usable]
        change _ + 3 ≤ _
        omega) habs₁
  have hzw : sw.zeroPage = s.zeroPage := hgw.zero.trans hmapped.zero
  have hround := hround _ _ _ rfl
  rw [hzw] at hround
  set w := zeroWord s.zeroPage flags
  set s₂ := (sw.writeWord pt (vpath wrapNext 1) w).incCount s.zeroPage
  have hbitmapw : sw.memoryBitmap s.zeroPage = 2 ^ 32 - 1 := by
    rw [hgw.bitmap _ (by omega), hbitmap₁]
  obtain ⟨l1, hd1⟩ := hw.pt
  have hset : LeafSet root rest (vpath wrapNext) (some w) sw s₂ := by
    have hset : LeafSet root rest (vpath wrapNext)
        (if present w then some w else none) sw s₂ :=
      hcw.leafSet hp hd1 w rfl rfl rfl
    rwa [if_pos hpres] at hset
  have hlow : s₁.memoryBitmap s.zeroPage ≠ 0 := by omega
  have hnotable₁ : forestTables pageFormat s₁.mem ((4, root) :: rest)
      s.zeroPage = 0 := by
    rw [hmapped.tables _ hzlt (by omega), hnotable]
  have hzlt₁ : s.zeroPage < s₁.usablePageCount := hmapped.usable ▸ hzlt
  have hnotablew : forestTables pageFormat sw.mem ((4, root) :: rest)
      s.zeroPage = 0 := by
    rw [hgw.tables _ hzlt₁ hlow, hnotable₁]
  refine ⟨s₁, s₂, hok₁, ?_, hzw, hgw.usable.trans hmapped.usable, ?_, ?_, ?_,
    ?_, (hset.tables _).trans hnotablew, ?_⟩
  · rw [allocZeroRegion, allocLoop, wrap_rounds.2, bind_ok]
    exact ⟨_, hround, rfl⟩
  · change (if s.zeroPage = s.zeroPage then
      (sw.memoryBitmap s.zeroPage + 1) % 2 ^ 32 else _) = 0
    rw [if_pos rfl, hbitmapw]
    decide
  · refine hcw.setLeaf (d := 3) hp hd1 w rfl rfl ?_ ?_
    · intro f _
      rw [hnone, if_neg Bool.false_ne_true, hpres, if_pos rfl, htarget]
      change (if f = s.zeroPage then 2 ^ 32 else if f = s.zeroPage then _ else
        sw.memoryBitmap f) + 0 = _
      by_cases hf : f = s.zeroPage
      · rw [if_pos hf, hf, if_pos rfl, hbitmapw]
        decide
      · rw [if_neg hf, if_neg hf, if_neg (Ne.symm hf)]
    · intro _
      rw [htarget, hgw.usable]
      exact hzlt₁
  · rw [hset.pte hnext hstart, if_neg (by decide)]
    have hsame : pte sw root wrapStart = pte s₁ root wrapStart :=
      hgw.leaf (4, root) (by simp) _ (vpath_inRange hstart)
    rw [hsame, hmapped.pte _ hstart, if_pos (by decide)]
  · rw [hset.pte hnext hnext, if_pos rfl]
  · rw [hset.data _ hnotablew, hgw.data _ hzlt₁ hlow hnotable₁,
      hmapped.data _ hzlt (by omega) hnotable]

end GlitchedOS
