/-
Runs of pages in the kernel's half.  `alloc_region` maps each page of its range to a frame
that holds no table, and panics over a mapped page only where one was mapped before;
`free_page` unmaps one page; bytes stored behind mapped pages are seen at their addresses.
No other page of the half changes in any of this.
-/
import GlitchedOS.Paging.Sound
import GlitchedOS.Paging.AllFrames

namespace GlitchedOS

open Radix

variable {s s' : PhysMem} {held : Nat → Nat} {trees rest : List (Nat × Nat)} {P root : Nat}
  {vaddr n : Nat} {flags : Flags}

/-- The pages of the kernel's half but the first of the image. -/
def KernelPage (addr : Nat) : Prop :=
  KernelAddr addr ∧ addr / pageSize ≠ imageBase / pageSize

theorem kpte_congr {a b : Nat} (ha : KernelAddr a) (hb : KernelAddr b)
    (hpage : a / pageSize = b / pageSize) : kpte s P a = kpte s P b :=
  leafWord_path_congr pageFormat ((kpath_samePage hb ha).mpr hpage)

theorem Grows.kpte (h : Grows ((3, P) :: rest) s s') (a : Nat) :
    kpte s' P a = GlitchedOS.kpte s P a :=
  h.leaf _ List.mem_cons_self _ (kpath_inRange a)

theorem Shrinks.kpte (h : Shrinks ((3, P) :: rest) s s') (a : Nat) :
    kpte s' P a = GlitchedOS.kpte s P a :=
  h.leaf _ List.mem_cons_self _ (kpath_inRange a)

theorem PageSet.kpte {addr a : Nat} {e : Option Word}
    (h : PageSet 3 P rest (kpath addr) e s.mem s'.mem) (haddr : KernelAddr addr)
    (ha : KernelAddr a) : kpte s' P a =
      if a / pageSize = addr / pageSize then e else GlitchedOS.kpte s P a := by
  split
  · rename_i hpage
    exact h.self _ ((kpath_samePage haddr ha).mpr hpage)
  · rename_i hpage
    exact h.other _ (kpath_inRange a) fun hsame => hpage ((kpath_samePage haddr ha).mp hsame)

theorem Counted.kernelMapped {a : Nat} {e : Word} (hc : Counted s held ((3, P) :: rest))
    (h : kpte s P a = some e) :
    frameOf e < s.usablePageCount ∧ s.memoryBitmap (frameOf e) ≠ 0 := by
  have hleaf : 0 < leafCount pageFormat s.mem 3 P (frameOf e) :=
    leafCount_pos_of_leafWord pageFormat (kpath_inRange a) h
  have hpos : 0 < forestLeaves pageFormat s.mem ((3, P) :: rest) (frameOf e) :=
    Nat.lt_of_lt_of_le hleaf
      (leafCount_le_forestLeaves pageFormat s.mem (x := (3, P)) List.mem_cons_self _)
  have hlt := hc.leaf_lt _ hpos
  refine ⟨hlt, ?_⟩
  rw [hc.exact _ hlt]
  omega

theorem Walked.kpte {addr pdpt pd pt : Nat} (hw : Walked s.mem root addr pdpt pd pt)
    (hlink : KernelLinked P trees s.mem) (hroot : (4, root) ∈ trees) (haddr : KernelAddr addr) :
    kpte s P addr =
      if present (s.mem pt (vpath addr 1)) then some (s.mem pt (vpath addr 1)) else none := by
  rw [← pte_kernel hlink hroot haddr]
  exact hw.leafWord

/-- What `n` rounds of `alloc_region` from the state `s` have done. -/
structure KernelMapped (P : Nat) (trees : List (Nat × Nat)) (vaddr : Nat) (s : PhysMem)
    (n : Nat) (st : PhysMem) : Prop where
  mapped : ∀ a, KernelAddr a → InPages vaddr n a → kpte s P a = none ∧
    ∃ e, kpte st P a = some e ∧
      forestTables pageFormat st.mem ((3, P) :: trees) (frameOf e) = 0
  other : ∀ a, KernelAddr a → ¬ InPages vaddr n a → kpte st P a = kpte s P a

namespace KernelMapped

variable {st st' : PhysMem}

theorem start (P : Nat) (trees : List (Nat × Nat)) (vaddr : Nat) (s : PhysMem) :
    KernelMapped P trees vaddr s 0 s := by
  refine ⟨fun a _ h => ?_, fun _ _ _ => rfl⟩
  simp only [InPages] at h
  omega

theorem grows (h : KernelMapped P trees vaddr s n st) (hc : Counted st held ((3, P) :: trees))
    (hgrow : Grows ((3, P) :: trees) st st') : KernelMapped P trees vaddr s n st' := by
  refine ⟨fun a ha hin => ?_, fun a ha hin => ?_⟩
  · obtain ⟨hnone, e, he, htables⟩ := h.mapped a ha hin
    obtain ⟨hlt, hused⟩ := hc.kernelMapped he
    exact ⟨hnone, e, (hgrow.kpte a).trans he, (hgrow.tables _ hlt hused).trans htables⟩
  · exact (hgrow.kpte a).trans (h.other a ha hin)

theorem next {e : Word} (h : KernelMapped P trees vaddr s n st)
    (haddr : KernelAddr (vaddr + n * pageSize))
    (habs : kpte st P (vaddr + n * pageSize) = none)
    (hdata : forestTables pageFormat st.mem ((3, P) :: trees) (frameOf e) = 0)
    (hset : PageSet 3 P trees (kpath (vaddr + n * pageSize)) (some e) st.mem st'.mem) :
    KernelMapped P trees vaddr s (n + 1) st' := by
  refine ⟨fun a ha hin => ?_, fun a ha hin => ?_⟩
  · rw [hset.kpte haddr ha]
    by_cases heq : a / pageSize = (vaddr + n * pageSize) / pageSize
    · rw [if_pos heq]
      refine ⟨?_, e, rfl, (hset.tables _).trans hdata⟩
      rw [kpte_congr ha haddr heq, ← h.other _ haddr (not_inPages_next vaddr n), habs]
    · rw [if_neg heq]
      obtain ⟨hnone, e', he', htables⟩ :=
        h.mapped a ha (((inPages_succ vaddr n a).mp hin).resolve_left heq)
      exact ⟨hnone, e', he', (hset.tables _).trans htables⟩
  · rw [inPages_succ, not_or] at hin
    rw [hset.kpte haddr ha, if_neg hin.1, h.other a ha hin.2]

end KernelMapped

theorem Sound.kernelRounds (hs : Sound P held trees s) (hroot : (4, root) ∈ trees) :
    ∀ {n : Nat} {c : Cursor} {s' : PhysMem}, (∀ k < n, KernelPage (vaddr + k * pageSize)) →
      loopRounds (regionRound root vaddr flags) n (Cursor.start vaddr, s) = .ok (c, s') →
      KernelMapped P trees vaddr s n s'
  | 0, c, s', _, h => by
      obtain ⟨-, rfl⟩ := Prod.mk.inj (Except.ok.inj h)
      exact .start P trees vaddr s
  | n + 1, c, s', hpages, h => by
      rw [loopRounds, bind_ok] at h
      obtain ⟨⟨c₀, s₀⟩, hbefore, h⟩ := h
      have hless : ∀ k < n, KernelPage (vaddr + k * pageSize) := fun k hk =>
        hpages k (Nat.lt_succ_of_lt hk)
      have hmapped := hs.kernelRounds hroot hless hbefore
      obtain ⟨hs₀, hv⟩ := hs.rounds hroot (fun k hk => Or.inr (hless k hk)) hbefore
      have hpage := hpages n (Nat.lt_succ_self n)
      obtain ⟨s₁, e, f, s₂, pd, pt, hc₁, hgrow, hlink₁, hw, habs, hleaf, -, rfl⟩ :=
        kernelRound_ok hs₀.counted hs₀.linked hroot hpage.1 (hv (Or.inr hpage)) h
      obtain ⟨hleafOk, hlt, hfree, -⟩ := regionLeaf_ok hleaf
      obtain ⟨-, -, l1, hd1⟩ := hw.kernel hlink₁ hroot hpage.1
      obtain ⟨-, hset, -⟩ := hc₁.mapPage (d := 2) (kpath_inRange _) hd1 habs hleafOk
      refine (hmapped.grows hs₀.counted hgrow).next hpage.1 ?_ ?_ hset
      · rw [hw.kpte hlink₁ hroot hpage.1, habs]
        rfl
      · rw [hleafOk.target]
        exact (hc₁.fresh hlt hfree).2.1

theorem Sound.kernelRegion {size : Nat} (hs : Sound P held trees s) (hroot : (4, root) ∈ trees)
    (hpages : ∀ k < regionRounds vaddr size, KernelPage (vaddr + k * pageSize))
    (h : GlitchedOS.allocRegion64 s root vaddr size flags = .ok s') :
    KernelMapped P trees vaddr s (regionRounds vaddr size) s' := by
  rw [GlitchedOS.allocRegion64, bind_ok] at h
  obtain ⟨⟨c, s₁⟩, hloop, h⟩ := h
  obtain rfl := Except.ok.inj h
  exact hs.kernelRounds hroot hpages hloop

/-- A round panics because of a mapped page only on a mapped page. -/
theorem kernelRound_alreadyMapped {addr : Nat} {c : Cursor}
    (hc : Counted s held ((3, P) :: rest)) (hlink : KernelLinked P rest s.mem)
    (hroot : (4, root) ∈ rest) (haddr : KernelAddr addr) (hv : c.Valid s.mem root addr)
    (h : allocRound (regionLeaf flags) root addr c s = .error .alreadyMapped) :
    kpte s P addr ≠ none := by
  simp only [allocRound, hv.idx, bind_error] at h
  obtain h | ⟨⟨pdpt, sa⟩, ha, h⟩ := h
  · exact absurd rfl (cachedTable_error h)
  obtain h | ⟨⟨pd, sb⟩, hb, h⟩ := h
  · exact absurd rfl (cachedTable_error h)
  obtain h | ⟨⟨pt, sc⟩, hcc, h⟩ := h
  · exact absurd rfl (cachedTable_error h)
  obtain ⟨hcw, hgw, hlinkw, hw⟩ := cachedTable_kernel hc hlink hroot haddr hv ha hb hcc
  obtain ⟨rfl, -, -⟩ := hw.kernel hlinkw hroot haddr
  obtain ⟨hco, hgo, hlinko, hwo⟩ := orWord_kernel hcw hlinkw hroot haddr hw
  dsimp only at h
  split at h
  · rename_i hpres
    have hsome := (hwo.kpte hlinko hroot haddr).trans (if_pos hpres)
    rw [← (hgw.trans hgo).kpte addr]
    exact fun hnone => Option.some_ne_none _ (hsome.symm.trans hnone)
  · rw [bind_error] at h
    obtain h | ⟨_, -, h⟩ := h
    · exact absurd rfl (regionLeaf_error h)
    · cases h

/-- The panic over a mapped page does not hang on how many frames there are. -/
theorem allocRound_widen_alreadyMapped {addr : Nat} {c : Cursor}
    (h : allocRound (regionLeaf flags) root addr c s = .error .alreadyMapped) :
    allocRound (regionLeaf flags) root addr c s.widen = .error .alreadyMapped := by
  simp only [allocRound, bind_error] at h
  obtain h | ⟨a, ha, h⟩ := h
  · exact absurd rfl (cachedTable_error h)
  obtain h | ⟨b, hb, h⟩ := h
  · exact absurd rfl (cachedTable_error h)
  obtain h | ⟨d, hd, h⟩ := h
  · exact absurd rfl (cachedTable_error h)
  split at h
  · rename_i hpres
    have hwa := cachedTable_widen _ _ s _ _ a ha
    have hwb := cachedTable_widen _ _ a.2 _ _ b hb
    have hwd := cachedTable_widen _ _ b.2 _ _ d hd
    rw [allocRound, hwa]
    change (cachedTable c.pdptChanged c.pd a.2.widen a.1 c.idx.pdptIndex >>= _) = _
    rw [hwb]
    change (cachedTable c.pdChanged c.pt b.2.widen b.1 c.idx.pdIndex >>= _) = _
    rw [hwd]
    exact if_pos hpres
  · rw [bind_error] at h
    obtain h | ⟨_, -, h⟩ := h
    · exact absurd rfl (regionLeaf_error h)
    · cases h

/-- The panic `already mapped` names a kernel page that was mapped before the call. -/
theorem Sound.kernelRegion_alreadyMapped {size : Nat} (hs : Sound P held trees s.widen)
    (hroot : (4, root) ∈ trees)
    (hpages : ∀ k < regionRounds vaddr size, KernelPage (vaddr + k * pageSize))
    (h : GlitchedOS.allocRegion64 s root vaddr size flags = .error .alreadyMapped) :
    ∃ k < regionRounds vaddr size, kpte s P (vaddr + k * pageSize) ≠ none := by
  rw [GlitchedOS.allocRegion64, bind_error] at h
  obtain h | ⟨_, -, h⟩ := h
  · obtain ⟨m, hm, ⟨c, st⟩, hok, hround⟩ := loopRounds_error h
    have hwide := Follows.loopRounds (w := widenSnd)
      (fun k state => regionRound_widen root vaddr flags k state) _ _ _ hok
    have hless : ∀ k < m, KernelPage (vaddr + k * pageSize) := fun k hk =>
      hpages k (Nat.lt_trans hk hm)
    obtain ⟨hs', hv⟩ := hs.rounds hroot (fun k hk => Or.inr (hless k hk)) hwide
    have hmapped := hs.kernelRounds hroot hless hwide
    have hpage := hpages m hm
    refine ⟨m, hm, fun hnone => ?_⟩
    exact kernelRound_alreadyMapped hs'.counted hs'.linked hroot hpage.1 (hv (Or.inr hpage))
      (allocRound_widen_alreadyMapped hround)
      ((hmapped.other _ hpage.1 (not_inPages_next vaddr m)).trans hnone)
  · cases h

theorem Sound.freePage_kpte {page a : Nat} (hs : Sound P held trees s) (hroot : (4, root) ∈ trees)
    (hpage : KernelPage page) (ha : KernelAddr a) :
    kpte (GlitchedOS.freePage s root page).2 P a =
      if a / pageSize = page / pageSize then none else kpte s P a := by
  obtain ⟨hkernel, hother⟩ := hpage
  by_cases hpte : kpte s P page = none
  · rw [freePage_unmapped ((pte_kernel hs.linked hroot hkernel).trans hpte)]
    split
    · rename_i heq
      rw [kpte_congr ha hkernel heq, hpte]
    · rfl
  · obtain ⟨-, -, s₁, hset, hsh⟩ := freePage_kernel hs.counted hs.linked hroot hkernel hpte
      imageBase_kernel (Ne.symm hother) hs.image
    rw [hsh.kpte a, hset.kpte hkernel ha]

/-- The loop of `kfree` over `n` pages. -/
def freePages (root vaddr n : Nat) (s : PhysMem) : PhysMem :=
  loopPure (fun k s => (freePage s root ((vaddr + k * pageSize) % 2 ^ 64)).2) n s

theorem freePages_widen (root vaddr n : Nat) (s : PhysMem) :
    freePages root vaddr n s.widen = (freePages root vaddr n s).widen :=
  loopPure_map (w := PhysMem.widen) (fun _ s => freePage_widen s root _) s n

theorem freePages_unmapped (hnone : ∀ k < n, pte s root ((vaddr + k * pageSize) % 2 ^ 64) = none) :
    freePages root vaddr n s = s :=
  loopPure_induct (P := fun _ st => st = s) rfl fun k hk st hst => by
    rw [hst, freePage_unmapped (hnone k hk)]

/-- The pages are unmapped and the others stay. -/
theorem Sound.freePages (hs : Sound P held trees s) (hroot : (4, root) ∈ trees)
    (hpages : ∀ k < n, KernelPage (vaddr + k * pageSize)) :
    Sound P held trees (GlitchedOS.freePages root vaddr n s) ∧ ∀ a, KernelAddr a →
      kpte (GlitchedOS.freePages root vaddr n s) P a =
        if InPages vaddr n a then none else kpte s P a := by
  refine loopPure_induct (P := fun k st => Sound P held trees st ∧ ∀ a, KernelAddr a →
    kpte st P a = if InPages vaddr k a then none else kpte s P a) ⟨hs, fun a _ => ?_⟩ ?_
  · rw [if_neg]
    simp only [InPages]
    omega
  · rintro k hk st ⟨hst, hpte⟩
    have hpage := hpages k hk
    rw [Nat.mod_eq_of_lt hpage.1.2]
    refine ⟨hst.freePage hroot (Or.inr hpage), fun a ha => ?_⟩
    rw [hst.freePage_kpte hroot hpage ha, hpte a ha]
    by_cases heq : a / pageSize = (vaddr + k * pageSize) / pageSize
    · rw [if_pos heq, if_pos ((inPages_succ vaddr k a).mpr (Or.inl heq))]
    · rw [if_neg heq]
      simp only [inPages_succ, heq, false_or]

theorem SameTables.kpte {T : Nat → Prop} (h : SameTables T s s')
    (hT : ∀ f, TableFrame P trees s f → T f) (a : Nat) :
    kpte s' P a = GlitchedOS.kpte s P a := by
  refine leafWord_congr pageFormat (kpath_inRange a) fun f hf i => ?_
  rw [h.mem f (hT f (Nat.lt_of_lt_of_le hf ?_))]
  exact tableCount_le_forestTables pageFormat s.mem (x := (3, P)) List.mem_cons_self f

theorem SameTables.widen {T : Nat → Prop} (h : SameTables T s s') :
    SameTables T s.widen s'.widen := by
  obtain ⟨⟨m, rfl⟩, hmem⟩ := h
  exact ⟨⟨m, rfl⟩, hmem⟩

theorem translate_kernel (hlink : KernelLinked P trees s.mem) (hroot : (4, root) ∈ trees)
    {a : Nat} (ha : KernelAddr a) : translate s root a = (kpte s P a).map frameOf := by
  have hcanonical : Canonical a := by
    refine Or.inr ⟨?_, ha.2⟩
    have hlo := ha.1
    rw [lowerHalf]
    omega
  rw [translate, if_pos hcanonical, pte_kernel hlink hroot ha]

theorem Sound.dataPages {A : Nat → Prop} (hs : Sound P held trees s) (hroot : (4, root) ∈ trees)
    (hkernel : ∀ a, A a → KernelAddr a)
    (hdata : ∀ a e, A a → kpte s P a = some e →
      forestTables pageFormat s.mem ((3, P) :: trees) (frameOf e) = 0) :
    DataPages s root A (TableFrame P trees s) where
  stable s' hsame a ha := by
    rw [translate_kernel (hs.sameTables hsame).linked hroot (hkernel a ha),
      translate_kernel hs.linked hroot (hkernel a ha), hsame.kpte fun _ hf => hf]
  data a f ha h := by
    rw [translate_kernel hs.linked hroot (hkernel a ha), Option.map_eq_some_iff] at h
    obtain ⟨e, he, rfl⟩ := h
    exact Nat.not_lt.mpr (Nat.le_of_eq (hdata a e ha he))
  inj a b f ha hb h h' := by
    rw [translate_kernel hs.linked hroot (hkernel a ha), Option.map_eq_some_iff] at h
    rw [translate_kernel hs.linked hroot (hkernel b hb), Option.map_eq_some_iff] at h'
    obtain ⟨e, he, rfl⟩ := h
    obtain ⟨e', he', heq⟩ := h'
    have hsame := hs.separate (3, P) List.mem_cons_self _ _ e' e (kpath_inRange b)
      (kpath_inRange a) he' he heq
    exact ((kpath_samePage (hkernel a ha) (hkernel b hb)).mp hsame).symm

theorem DataPages.narrow {A T : Nat → Prop} (hd : DataPages s.widen root A T) :
    DataPages s root A T :=
  ⟨fun s' hsame => hd.stable s'.widen hsame.widen, hd.data, hd.inj⟩

theorem Sound.storeRegion {size : Nat} {st : PhysMem} (hs : Sound P held trees st.widen)
    (hroot : (4, root) ∈ trees) (hmapped : KernelMapped P trees vaddr s n st.widen)
    (byte : Nat → Byte) (hwrap : vaddr + size ≤ 2 ^ 64)
    (hblock : ∀ j < size, KernelAddr (vaddr + j) ∧ InPages vaddr n (vaddr + j)) :
    ∃ s', storeBytes root vaddr byte size st = some s' ∧ Sound P held trees s'.widen ∧
      (∀ a, kpte s' P a = kpte st P a) ∧
      ∀ j < size, virtByte s' root (vaddr + j) = some (byte j) := by
  have hdata : DataPages st.widen root (fun a => KernelAddr a ∧ InPages vaddr n a)
      (TableFrame P trees st.widen) := by
    refine hs.dataPages hroot (fun a ha => ha.1) fun a e ha he => ?_
    obtain ⟨-, e', he', htables⟩ := hmapped.mapped a ha.1 ha.2
    obtain rfl := Option.some.inj (he.symm.trans he')
    exact htables
  have htrans : ∀ j < size, translate st root (vaddr + j) ≠ none := by
    intro j hj
    obtain ⟨-, e, he, -⟩ := hmapped.mapped _ (hblock j hj).1 (hblock j hj).2
    have htrans := translate_kernel hs.linked hroot (hblock j hj).1
    rw [he] at htrans
    exact fun hnone => Option.some_ne_none _ (htrans.symm.trans hnone)
  obtain ⟨s', hstore, hsame, hbytes⟩ :=
    hdata.narrow.storeBytes vaddr byte hwrap hblock htrans
  refine ⟨s', hstore, hs.sameTables hsame.widen, fun a => ?_, fun j hj => ?_⟩
  · exact hsame.kpte (fun f (hf : TableFrame P trees st f) => hf) a
  · rw [hbytes _ (hblock j hj), if_pos (by omega), Nat.add_sub_cancel_left]

/-- A store outside the canonical addresses faults, and so does every run that contains one. -/
theorem storeBytes_fault {addr k : Nat} (byte : Nat → Byte)
    (hk : ¬ Canonical ((addr + k) % 2 ^ 64)) : ∀ {n : Nat} (s : PhysMem), k < n →
      storeBytes root addr byte n s = none
  | 0, _, h => absurd h (Nat.not_lt_zero k)
  | n + 1, s, h => by
      rw [storeBytes, Option.bind_eq_bind]
      rcases Nat.lt_or_eq_of_le (Nat.le_of_lt_succ h) with hlt | rfl
      · rw [storeBytes_fault byte hk s hlt, Option.bind_none]
      · cases storeBytes root addr byte k s with
        | none => rfl
        | some s' =>
            rw [Option.bind_some, storeVirt, translate, if_neg hk]
            rfl

end GlitchedOS
