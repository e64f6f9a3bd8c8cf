/-
`alloc_region` for any address and size: the bound of its loop is computed in 64
bits, so a size that wraps it maps fewer pages than it asks for.  On unmapped pages
of the lower half a region never meets a mapped page, and the frames it maps are
shared with nothing; with frames to spare a round fails for no other reason than a
mapped page.
-/
import GlitchedOS.Paging.Bytes
import GlitchedOS.Paging.Progress
import GlitchedOS.Paging.Free

namespace GlitchedOS

open Radix

variable {s s' : PhysMem} {held : Nat → Nat} {rest : List (Nat × Nat)} {root : Nat}

/-- The leaf of `alloc_region`: a free frame, mapped with the flags of the caller. -/
def regionLeaf (flags : Flags) : LeafSource := fun _ s => do
  let (f, s) ← getAvailableAddress s
  .ok (mapWord f flags, f, s)

/-- The rounds of `alloc_region`, whose bound `PAGE_ALIGN(vaddr + size)` may wrap. -/
def regionRounds (vaddr size : Nat) : Nat :=
  pageRounds vaddr (pageAlign64 ((vaddr + size) % 2 ^ 64))

/-- Round `k` of `alloc_region`. -/
def regionRound (root vaddr : Nat) (flags : Flags) (k : Nat)
    (state : Cursor × PhysMem) : Except Panic (Cursor × PhysMem) :=
  allocRound (regionLeaf flags) root (vaddr + k * pageSize) state.1 state.2

/-- `alloc_region` on 64-bit words. -/
def allocRegion64 (s : PhysMem) (root vaddr size : Nat) (flags : Flags) :
    Except Panic PhysMem := do
  let (_, s) ← loopRounds (regionRound root vaddr flags) (regionRounds vaddr size)
    (Cursor.start vaddr, s)
  .ok s

/-- The rounds of a loop that complete. -/
def loopDone {S : Type} (body : Nat → S → Except Panic S) : Nat → S → Nat
  | 0, _ => 0
  | n + 1, s =>
      match loopRounds body (n + 1) s with
      | .ok _ => n + 1
      | .error _ => loopDone body n s

/-- The pages `alloc_region` has mapped when it returns or panics. -/
def regionDone (s : PhysMem) (root vaddr size : Nat) (flags : Flags) : Nat :=
  loopDone (regionRound root vaddr flags) (regionRounds vaddr size)
    (Cursor.start vaddr, s)

/-- Where nothing wraps, the bound is the mathematical one. -/
theorem regionRounds_eq {vaddr size : Nat}
    (hfit : vaddr + size + pageSize ≤ 2 ^ 64) :
    regionRounds vaddr size = pageRounds vaddr (pageAlign (vaddr + size)) := by
  rw [regionRounds, pageAlign64, pageAlign]
  rw [pageSize] at *
  rw [Nat.mod_eq_of_lt (a := vaddr + size) (by omega), Nat.mod_eq_of_lt (by omega)]

theorem le_loopDone {S : Type} {body : Nat → S → Except Panic S} {start finish : S}
    {m : Nat} (h : loopRounds body m start = .ok finish) :
    ∀ {n : Nat}, m ≤ n → m ≤ loopDone body n start
  | 0, hle => hle
  | n + 1, hle => by
      rw [loopDone]
      split
      · exact hle
      · rename_i herror
        apply le_loopDone h
        rcases Nat.eq_or_lt_of_le hle with rfl | hlt
        · rw [h] at herror
          cases herror
        · exact Nat.le_of_lt_succ hlt

theorem loopDone_le {S : Type} (body : Nat → S → Except Panic S) (start : S) :
    ∀ n, loopDone body n start ≤ n
  | 0 => Nat.le_refl _
  | n + 1 => by
      rw [loopDone]
      split
      · exact Nat.le_refl _
      · exact Nat.le_succ_of_le (loopDone_le body start n)

/-- The panic of a loop is that of a round after rounds that completed. -/
theorem loopRounds_error {S : Type} {body : Nat → S → Except Panic S} {start : S}
    {reason : Panic} : ∀ {n : Nat}, loopRounds body n start = .error reason →
      ∃ m < n, ∃ middle, loopRounds body m start = .ok middle ∧
        body m middle = .error reason
  | 0, h => by cases h
  | n + 1, h => by
      rw [loopRounds] at h
      cases hn : loopRounds body n start with
      | ok middle =>
          rw [hn] at h
          exact ⟨n, Nat.lt_succ_self n, middle, hn, h⟩
      | error reason' =>
          rw [hn] at h
          cases h
          obtain ⟨m, hm, hrest⟩ := loopRounds_error hn
          exact ⟨m, Nat.lt_succ_of_lt hm, hrest⟩

theorem loopRounds_error_of_le {S : Type} {body : Nat → S → Except Panic S}
    {start : S} {reason : Panic} {m : Nat}
    (h : loopRounds body m start = .error reason) :
    ∀ {n : Nat}, m ≤ n → loopRounds body n start = .error reason
  | 0, hle => by
      obtain rfl := Nat.le_zero.mp hle
      exact h
  | n + 1, hle => by
      rcases Nat.eq_or_lt_of_le hle with rfl | hlt
      · exact h
      · rw [loopRounds, loopRounds_error_of_le h (Nat.le_of_lt_succ hlt)]
        rfl

/-! ### Why a round fails -/

theorem bind_error {α β : Type} {x : Except Panic α} {f : α → Except Panic β}
    {e : Panic} :
    (x >>= f) = .error e ↔ x = .error e ∨ ∃ a, x = .ok a ∧ f a = .error e := by
  cases x with
  | error e' => simp [bind, Except.bind]
  | ok a => simp [bind, Except.bind]

theorem getAvailableAddress_error {e : Panic} (h : getAvailableAddress s = .error e) :
    e = .outOfMemory := by
  rw [getAvailableAddress] at h
  split at h
  · cases h
  · cases h
    rfl

theorem cachedTable_error {changed : Bool} {cached t i : Nat} {e : Panic}
    (h : cachedTable changed cached s t i = .error e) : e ≠ .alreadyMapped := by
  rw [cachedTable] at h
  split at h
  · rw [tableAt] at h
    split at h
    · cases h
    · rw [allocatePhysicalPage, bind_error] at h
      obtain h | ⟨⟨f, s₁⟩, -, h⟩ := h
      · rw [bind_error] at h
        obtain h | ⟨_, -, h⟩ := h
        · rw [getAvailableAddress_error h]
          decide
        · cases h
      · dsimp only at h
        split at h
        · cases h
          decide
        · cases h
  · cases h

theorem regionLeaf_error {flags : Flags} {i : Nat} {e : Panic}
    (h : regionLeaf flags i s = .error e) : e ≠ .alreadyMapped := by
  rw [regionLeaf, bind_error] at h
  obtain h | ⟨_, -, h⟩ := h
  · rw [getAvailableAddress_error h]
    decide
  · cases h

/-- A round panics because of a mapped page only on a mapped page. -/
theorem allocRound_alreadyMapped {addr : Nat} {c : Cursor} {flags : Flags}
    (hc : Counted s held ((4, root) :: rest)) (haddr : addr < lowerHalf)
    (hv : c.Valid s.mem root addr)
    (h : allocRound (regionLeaf flags) root addr c s = .error .alreadyMapped) :
    pte s root addr ≠ none := by
  simp only [allocRound, hv.idx, bind_error] at h
  obtain h | ⟨⟨pdpt, sa⟩, ha, h⟩ := h
  · exact absurd rfl (cachedTable_error h)
  obtain h | ⟨⟨pd, sb⟩, hb, h⟩ := h
  · exact absurd rfl (cachedTable_error h)
  obtain h | ⟨⟨pt, sc⟩, hcc, h⟩ := h
  · exact absurd rfl (cachedTable_error h)
  obtain ⟨hcw, hgw, hw⟩ := cachedTable_walk hc haddr hv ha hb hcc
  obtain ⟨hco, hgo, hwo⟩ := orWord_walk hcw haddr hw
  dsimp only at h
  split at h
  · rename_i hpres
    have hsome := hwo.leafWord.trans (if_pos hpres)
    rw [← (hgw.trans hgo).pte haddr]
    exact fun hnone => Option.some_ne_none _ (hsome.symm.trans hnone)
  · rw [bind_error] at h
    obtain h | ⟨_, -, h⟩ := h
    · exact absurd rfl (regionLeaf_error h)
    · cases h

/-! ### Rounds with frames to spare -/

/-- A pointer is cached only below a cached one. -/
structure Cursor.Ordered (c : Cursor) : Prop where
  pdpt : c.pdptChanged = false → c.pml4Changed = false
  pd : c.pdChanged = false → c.pdptChanged = false

theorem Cursor.ordered_start (vaddr : Nat) : (Cursor.start vaddr).Ordered :=
  ⟨nofun, nofun⟩

theorem Cursor.ordered_advance (c : Cursor) : c.advance.Ordered := by
  unfold Cursor.advance
  dsimp only
  split
  · exact ⟨fun _ => rfl, fun _ => rfl⟩
  · split
    · exact ⟨fun _ => rfl, nofun⟩
    · split <;> exact ⟨nofun, nofun⟩

/-- With four frames to spare a round maps its page unless it is mapped already. -/
theorem allocRound_roomy (root addr : Nat) (flags : Flags) {k : Nat} {c : Cursor}
    (hroomy : Roomy s k) (hk : k + 4 ≤ s.usablePageCount) (hord : c.Ordered) :
    allocRound (regionLeaf flags) root addr c s = .error .alreadyMapped ∨
      ∃ c' s', allocRound (regionLeaf flags) root addr c s = .ok (c', s') ∧
        Roomy s' (k + 4) ∧ s'.usablePageCount = s.usablePageCount ∧ c'.Ordered := by
  have hcost : tableCost c.pdChanged ≤ 3 := by
    rw [tableCost]
    split <;> omega
  obtain ⟨pdpt, sa, pd, sb, pt, sc, ha, hb, hcc, hroomy', husable⟩ :=
    cachedTable_progress root hroomy (by omega) hord.pdpt hord.pd
  have hroomy₃ := (((hroomy'.mono (by omega : _ ≤ k + 3)).writeWord root
    c.idx.pml4Index (sc.mem root c.idx.pml4Index ||| higherLevelFlags)))
  set s₁ := orWord (orWord (orWord sc root c.idx.pml4Index higherLevelFlags) pdpt
    c.idx.pdptIndex higherLevelFlags) pd c.idx.pdIndex higherLevelFlags with hs₁
  have hr₁ : Roomy s₁ (k + 3) := (hroomy₃.writeWord _ _ _).writeWord _ _ _
  have hbody : allocRound (regionLeaf flags) root addr c s =
      if present (s₁.mem pt c.idx.ptIndex) then .error .alreadyMapped
      else (regionLeaf flags addr s₁ >>= fun r => .ok
        (Cursor.advance { c with pdpt := pdpt, pd := pd, pt := pt },
          (r.2.2.writeWord pt c.idx.ptIndex r.1).incCount r.2.1)) := by
    rw [allocRound, ha]
    change (cachedTable c.pdptChanged c.pd sa pdpt c.idx.pdptIndex >>= _) = _
    rw [hb]
    change (cachedTable c.pdChanged c.pt sb pd c.idx.pdIndex >>= _) = _
    rw [hcc]
    rfl
  rw [hbody]
  split
  · exact Or.inl rfl
  · right
    obtain ⟨f, hle, hne, hget⟩ := getAvailableAddress_progress hr₁
      (by change k + 3 < sc.usablePageCount; omega)
    have hleaf : regionLeaf flags addr s₁ =
        .ok (mapWord f flags, f, { s₁ with firstUsable := f + 1 }) := by
      rw [regionLeaf, hget]
      rfl
    rw [hleaf]
    refine ⟨_, _, rfl, ⟨?_, ?_, ?_⟩, husable, Cursor.ordered_advance _⟩
    · change f + 1 ≤ k + 4
      omega
    · intro g hg hlt
      change (if g = f then _ else s₁.memoryBitmap g) = 0
      rw [if_neg (by omega)]
      exact hr₁.free g (by omega) hlt
    · change (if 0 = f then _ else s₁.memoryBitmap 0) ≠ 0
      rw [if_neg (Ne.symm hne)]
      exact hr₁.low

theorem regionRounds_roomy (root vaddr : Nat) (flags : Flags) {k : Nat}
    (hroomy : Roomy s k) :
    ∀ {n : Nat}, k + 4 * n ≤ s.usablePageCount →
      loopRounds (regionRound root vaddr flags) n (Cursor.start vaddr, s) =
          .error .alreadyMapped ∨
        ∃ c' s', loopRounds (regionRound root vaddr flags) n (Cursor.start vaddr, s) =
            .ok (c', s') ∧ Roomy s' (k + 4 * n) ∧
          s'.usablePageCount = s.usablePageCount ∧ c'.Ordered
  | 0, _ => Or.inr ⟨_, s, rfl, hroomy, rfl, Cursor.ordered_start vaddr⟩
  | n + 1, hk => by
      rw [loopRounds]
      obtain herror | ⟨c', s', hok, hroomy', husable, hord⟩ :=
        regionRounds_roomy root vaddr flags (n := n) hroomy (by omega)
      · left
        rw [herror]
        rfl
      · rw [hok]
        obtain herror | ⟨c'', s'', hok', hroomy'', husable', hord'⟩ :=
          allocRound_roomy root (vaddr + n * pageSize) flags hroomy' (by omega) hord
        · exact Or.inl herror
        · exact Or.inr ⟨c'', s'', hok', hroomy'', husable'.trans husable, hord'⟩

/-! ### The pages of an address space -/

/-- The pages of the lower half are mapped to frames that hold no table, each to its
own. -/
structure UserData (s : PhysMem) (root : Nat) (rest : List (Nat × Nat)) : Prop where
  data : ∀ a e, a < lowerHalf → pte s root a = some e →
    forestTables pageFormat s.mem ((4, root) :: rest) (frameOf e) = 0
  inj : ∀ a b e e', a < lowerHalf → b < lowerHalf → pte s root a = some e →
    pte s root b = some e' → frameOf e = frameOf e' → a / pageSize = b / pageSize

namespace UserData

theorem of_unmapped (habs : ∀ a < lowerHalf, pte s root a = none) :
    UserData s root rest where
  data a e ha h := by
    rw [habs a ha] at h
    cases h
  inj a b e e' ha _ h := by
    rw [habs a ha] at h
    cases h

theorem grows (hu : UserData s root rest) (hc : Counted s held ((4, root) :: rest))
    (hgrow : Grows ((4, root) :: rest) s s') : UserData s' root rest where
  data a e ha h := by
    rw [hgrow.pte ha] at h
    obtain ⟨hlt, hused, -⟩ := hc.mapped (by simp) ha h
    rw [hgrow.tables _ hlt hused]
    exact hu.data a e ha h
  inj a b e e' ha hb h h' := by
    rw [hgrow.pte ha] at h
    rw [hgrow.pte hb] at h'
    exact hu.inj a b e e' ha hb h h'

theorem mapFresh {addr : Nat} {e : Word} (hu : UserData s root rest)
    (hc : Counted s held ((4, root) :: rest)) (haddr : addr < lowerHalf)
    (hset : LeafSet root rest (vpath addr) (some e) s s')
    (hlt : frameOf e < s.usablePageCount) (hfree : s.memoryBitmap (frameOf e) = 0) :
    UserData s' root rest := by
  have hnew : ∀ b e', b < lowerHalf → pte s root b = some e' →
      frameOf e' ≠ frameOf e := by
    intro b e' hb h heq
    exact (hc.mapped (by simp) hb h).2.1 (heq ▸ hfree)
  constructor
  · intro a e' ha h
    rw [hset.tables]
    rw [hset.pte haddr ha] at h
    split at h
    · obtain rfl := Option.some.inj h
      exact (hc.fresh hlt hfree).2.1
    · exact hu.data a e' ha h
  · intro a b e₁ e₂ ha hb h₁ h₂ heq
    rw [hset.pte haddr ha] at h₁
    rw [hset.pte haddr hb] at h₂
    split at h₁
    · rename_i hpa
      split at h₂
      · rename_i hpb
        rw [hpa, hpb]
      · obtain rfl := Option.some.inj h₁
        exact absurd heq.symm (hnew b e₂ hb h₂)
    · split at h₂
      · obtain rfl := Option.some.inj h₂
        exact absurd heq (hnew a e₁ ha h₁)
      · exact hu.inj a b e₁ e₂ ha hb h₁ h₂ heq

theorem translate_eq {a : Nat} (ha : a < lowerHalf) :
    translate s root a = (pte s root a).map frameOf :=
  if_pos (Or.inl ha)

theorem dataPages (hu : UserData s root rest) :
    DataPages s root (· < lowerHalf)
      (fun f => 0 < forestTables pageFormat s.mem ((4, root) :: rest) f) where
  stable s' hsame a ha := by
    rw [translate_eq ha, translate_eq ha]
    congr 1
    apply leafWord_congr pageFormat (vpath_inRange ha)
    intro f hf i
    have hle : tableCount pageFormat s.mem 4 root f ≤
        forestTables pageFormat s.mem ((4, root) :: rest) f :=
      tableCount_le_forestTables pageFormat s.mem (x := (4, root)) (by simp) f
    rw [hsame.mem f (Nat.lt_of_lt_of_le hf hle)]
  data a f ha h := by
    rw [translate_eq ha] at h
    obtain ⟨e, he, rfl⟩ := Option.map_eq_some_iff.mp h
    exact Nat.not_lt.mpr (Nat.le_of_eq (hu.data a e ha he))
  inj a b f ha hb h h' := by
    rw [translate_eq ha] at h
    rw [translate_eq hb] at h'
    obtain ⟨e, he, rfl⟩ := Option.map_eq_some_iff.mp h
    obtain ⟨e', he', heq⟩ := Option.map_eq_some_iff.mp h'
    exact hu.inj a b e e' ha hb he he' heq.symm

end UserData

/-! ### A region of the lower half -/

theorem pte_congr {a b : Nat} (ha : a < lowerHalf) (hb : b < lowerHalf)
    (hpage : a / pageSize = b / pageSize) : pte s root a = pte s root b :=
  leafWord_path_congr pageFormat ((vpath_samePage hb ha).mpr hpage)

/-- What `n` rounds of `alloc_region` from the state `s` have done. -/
structure RegionMapped (root : Nat) (rest : List (Nat × Nat)) (vaddr : Nat)
    (flags : Flags) (s : PhysMem) (n : Nat) (st : PhysMem) : Prop where
  usable : st.usablePageCount = s.usablePageCount
  userData : UserData st root rest
  pte : ∀ a < lowerHalf, if InPages vaddr n a then
      pte s root a = none ∧ ∃ f < 2 ^ 40, pte st root a = some (mapWord f flags)
    else pte st root a = pte s root a
  kept : ∀ f < s.usablePageCount, s.memoryBitmap f ≠ 0 → st.memoryBitmap f ≠ 0 ∧
    forestTables pageFormat st.mem ((4, root) :: rest) f =
      forestTables pageFormat s.mem ((4, root) :: rest) f ∧
    (forestTables pageFormat s.mem ((4, root) :: rest) f = 0 → st.mem f = s.mem f)

namespace RegionMapped

variable {vaddr : Nat} {flags : Flags} {n : Nat} {st st' : PhysMem}

theorem start (hu : UserData s root rest) :
    RegionMapped root rest vaddr flags s 0 s := by
  refine ⟨rfl, hu, fun a _ => ?_, fun f _ hf => ⟨hf, rfl, fun _ => rfl⟩⟩
  rw [if_neg]
  simp only [InPages]
  omega

theorem grows (h : RegionMapped root rest vaddr flags s n st)
    (hc : Counted st held ((4, root) :: rest))
    (hgrow : Grows ((4, root) :: rest) st st') :
    RegionMapped root rest vaddr flags s n st' := by
  refine ⟨hgrow.usable.trans h.usable, h.userData.grows hc hgrow, fun a ha => ?_,
    fun f hlt hf => ?_⟩
  · rw [hgrow.pte ha]
    exact h.pte a ha
  · obtain ⟨hused, htables, hdata⟩ := h.kept f hlt hf
    have hlt' : f < st.usablePageCount := h.usable ▸ hlt
    refine ⟨by rwa [hgrow.bitmap f hused],
      (hgrow.tables f hlt' hused).trans htables, fun hzero => ?_⟩
    rw [hgrow.data f hlt' hused (htables.trans hzero), hdata hzero]

theorem next (h : RegionMapped root rest vaddr flags s n st)
    (hc : Counted st held ((4, root) :: rest)) {f : Nat}
    (haddr : vaddr + n * pageSize < lowerHalf)
    (habs : GlitchedOS.pte st root (vaddr + n * pageSize) = none)
    (hlt : f < st.usablePageCount) (hfree : st.memoryBitmap f = 0)
    (hset : LeafSet root rest (vpath (vaddr + n * pageSize))
      (some (mapWord f flags)) st st')
    (hbitmap : ∀ g, st'.memoryBitmap g =
      st.memoryBitmap g + if f = g then 1 else 0) :
    RegionMapped root rest vaddr flags s (n + 1) st' := by
  have hf40 : f < 2 ^ 40 := Nat.lt_of_lt_of_le hlt st.usable_le
  have htarget := (mapWord_spec hf40 flags).2.1
  refine ⟨hset.usable.trans h.usable, h.userData.mapFresh hc haddr hset
    (by rwa [htarget]) (by rwa [htarget]), fun a ha => ?_, fun g hg hused => ?_⟩
  · rw [hset.pte haddr ha]
    by_cases heq : a / pageSize = (vaddr + n * pageSize) / pageSize
    · rw [if_pos heq, if_pos ((inPages_succ vaddr n a).mpr (Or.inl heq))]
      refine ⟨?_, f, hf40, rfl⟩
      have hnot : ¬ InPages vaddr n a := by
        rw [InPages, heq]
        exact not_inPages_next vaddr n
      have hold := h.pte a ha
      rw [if_neg hnot] at hold
      rw [← hold, pte_congr ha haddr heq, habs]
    · have hiff : InPages vaddr (n + 1) a ↔ InPages vaddr n a := by
        rw [inPages_succ, or_iff_right heq]
      rw [if_neg heq]
      simp only [hiff]
      exact h.pte a ha
  · obtain ⟨hne, htables, hdata⟩ := h.kept g hg hused
    refine ⟨?_, (hset.tables g).trans htables, fun hzero => ?_⟩
    · rw [hbitmap]
      omega
    · rw [hset.data g (htables.trans hzero), hdata hzero]

end RegionMapped

section LowerHalf

variable {vaddr size : Nat} {flags : Flags}

theorem regionRounds_spec (hc : Counted s held ((4, root) :: rest))
    (hu : UserData s root rest) {n : Nat}
    (hfit : ∀ k < n, vaddr + k * pageSize < lowerHalf) {c : Cursor}
    (h : loopRounds (regionRound root vaddr flags) n (Cursor.start vaddr, s) =
      .ok (c, s')) :
    Counted s' held ((4, root) :: rest) ∧ RegionMapped root rest vaddr flags s n s' ∧
      c.Valid s'.mem root (vaddr + n * pageSize) := by
  refine allocRounds_rule (RegionMapped root rest vaddr flags s) hc
    (fun k st st' hst hgrow hI => hI.grows hst hgrow) n hfit ?_ (.start hu) c s' h
  intro k st e f st₁ hst hI hk habs hleaf
  rw [regionLeaf, bind_ok] at hleaf
  obtain ⟨⟨g, st₂⟩, hget, hleaf⟩ := hleaf
  obtain ⟨rfl, hrest⟩ := Prod.mk.inj (Except.ok.inj hleaf)
  obtain ⟨rfl, rfl⟩ := Prod.mk.inj hrest
  obtain ⟨hlt, hzero, rfl⟩ := getAvailableAddress_ok hget
  obtain ⟨hpres, htarget, -⟩ :=
    mapWord_spec (Nat.lt_of_lt_of_le hlt st.usable_le) flags
  refine ⟨⟨hpres, htarget, hlt, by omega, _, rfl⟩, fun st' _ hset hbitmap => ?_⟩
  exact hI.next hst (hfit k hk) habs hlt hzero hset hbitmap

/-- `alloc_region` maps each page of the region to a frame of its own, and the pages
were not mapped before. -/
theorem allocRegion64_spec (hc : Counted s held ((4, root) :: rest))
    (hu : UserData s root rest)
    (hfit : ∀ k < regionRounds vaddr size, vaddr + k * pageSize < lowerHalf)
    (h : allocRegion64 s root vaddr size flags = .ok s') :
    Counted s' held ((4, root) :: rest) ∧
      RegionMapped root rest vaddr flags s (regionRounds vaddr size) s' := by
  rw [allocRegion64, bind_ok] at h
  obtain ⟨⟨c, s₁⟩, hloop, h⟩ := h
  obtain rfl := Except.ok.inj h
  obtain ⟨hc', hmapped, -⟩ := regionRounds_spec hc hu hfit hloop
  exact ⟨hc', hmapped⟩

/-- The panic `already mapped` names a page that was mapped before the call. -/
theorem allocRegion64_alreadyMapped (hc : Counted s held ((4, root) :: rest))
    (hu : UserData s root rest)
    (hfit : ∀ k < regionRounds vaddr size, vaddr + k * pageSize < lowerHalf)
    (h : allocRegion64 s root vaddr size flags = .error .alreadyMapped) :
    ∃ a < lowerHalf, InPages vaddr (regionRounds vaddr size) a ∧
      pte s root a ≠ none := by
  rw [allocRegion64, bind_error] at h
  obtain h | ⟨_, -, h⟩ := h
  · obtain ⟨m, hm, ⟨c, st⟩, hok, hround⟩ := loopRounds_error h
    obtain ⟨hcst, hmapped, hvalid⟩ :=
      regionRounds_spec hc hu (fun k hk => hfit k (Nat.lt_trans hk hm)) hok
    have haddr := hfit m hm
    have hpage : (vaddr + m * pageSize) / pageSize = vaddr / pageSize + m :=
      Nat.add_mul_div_right _ _ (by decide)
    have hold := hmapped.pte _ haddr
    rw [if_neg (not_inPages_next vaddr m)] at hold
    refine ⟨_, haddr, ?_, hold ▸ allocRound_alreadyMapped hcst haddr hvalid hround⟩
    rw [InPages, hpage]
    omega
  · cases h

end LowerHalf

theorem allocRegion64_progress {vaddr size k : Nat} (flags : Flags)
    (hc : Counted s held ((4, root) :: rest)) (habs : ∀ a < lowerHalf, pte s root a = none)
    (hfit : ∀ k < regionRounds vaddr size, vaddr + k * pageSize < lowerHalf)
    (hroomy : Roomy s k) (hframes : k + 4 * regionRounds vaddr size ≤ s.usablePageCount) :
    ∃ s', allocRegion64 s root vaddr size flags = .ok s' := by
  obtain herror | ⟨c, s', hok, -⟩ := regionRounds_roomy root vaddr flags hroomy hframes
  · have hmapped : allocRegion64 s root vaddr size flags = .error .alreadyMapped := by
      rw [allocRegion64, herror]
      rfl
    obtain ⟨a, ha, -, hpte⟩ := allocRegion64_alreadyMapped hc (.of_unmapped habs) hfit hmapped
    exact absurd (habs a ha) hpte
  · refine ⟨s', ?_⟩
    rw [allocRegion64, hok]
    rfl

/-! ### A machine with nothing in it -/

/-- An address space that maps no page of the lower half, with exact counts. -/
structure EmptyLowerHalf (s : PhysMem) (root : Nat) (rest : List (Nat × Nat))
    (held : Nat → Nat) : Prop where
  counted : Counted s held ((4, root) :: rest)
  unmapped : ∀ a < lowerHalf, pte s root a = none

/-- A machine of which frame `0` is taken and frame `1` is an empty root table. -/
def emptyMachine (frames : Nat) (hframes : frames ≤ 2 ^ 40) : PhysMem where
  mem _ _ := 0#64
  memoryBitmap f := if f ≤ 1 then 1 else 0
  firstUsable := 2
  usablePageCount := frames
  zeroPage := 0
  usable_le := hframes

def emptyHeld (f : Nat) : Nat := if f = 0 then 1 else 0

theorem emptyMachine_empty {frames : Nat} (hframes : frames ≤ 2 ^ 40)
    (htwo : 2 ≤ frames) :
    EmptyLowerHalf (emptyMachine frames hframes) 1 [] emptyHeld := by
  have hempty : ∀ i < pageFormat.width (3 + 1),
      pageFormat.present ((emptyMachine frames hframes).mem 1 i) = false := by
    intro i _
    have hword : (emptyMachine frames hframes).mem 1 i = 0#64 := rfl
    rw [hword]
    exact present_zero
  have htables : ∀ f, forestTables pageFormat (emptyMachine frames hframes).mem
      [(4, 1)] f = if 1 = f then 1 else 0 := by
    intro f
    rw [forestTables_cons, tableCount, weight_of_empty pageFormat _ _ hempty]
    rfl
  have hleaves : ∀ f, forestLeaves pageFormat (emptyMachine frames hframes).mem
      [(4, 1)] f = 0 := by
    intro f
    rw [forestLeaves_cons, leafCount, weight_of_empty pageFormat _ _ hempty]
    rfl
  refine ⟨⟨?_, ?_, ?_, ?_, ?_⟩, ?_⟩
  · intro f
    rw [htables, emptyHeld]
    split <;> split <;> omega
  · intro f _
    rw [htables, hleaves, emptyHeld]
    change (if f ≤ 1 then 1 else 0) = _
    split <;> split <;> split <;> omega
  · intro f hf
    rw [emptyHeld] at hf
    split at hf
    · change f < frames
      omega
    · cases hf
  · intro f hf
    rw [hleaves] at hf
    cases hf
  · intro f hf
    rw [htables] at hf
    split at hf
    · rename_i heq
      subst heq
      exact Or.inr (by simp)
    · cases hf
  · intro a ha
    exact leafWord_of_empty pageFormat (hempty _ (vpath_inRange ha 4))

theorem emptyMachine_roomy {frames : Nat} (hframes : frames ≤ 2 ^ 40) :
    Roomy (emptyMachine frames hframes) 2 := by
  refine ⟨Nat.le_refl _, fun f hf _ => ?_, ?_⟩
  · change (if f ≤ 1 then 1 else 0) = 0
    exact if_neg (by omega)
  · change (if 0 ≤ 1 then 1 else 0) ≠ 0
    decide

end GlitchedOS
