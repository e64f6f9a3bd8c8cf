/-
The copy-on-write fault handler.  It makes one page writable and private: the
entry gets `FLAGS_RW` for `FLAGS_COW`, its frame is afterwards mapped there
alone and holds what the old one held, and no other translation changes.
-/
import GlitchedOS.Paging.Free

namespace GlitchedOS

open Radix

variable {s s' s'' : PhysMem} {held : Nat → Nat} {trees rest : List (Nat × Nat)}

/-- The four entries of the walk to `addr`, from the PML4 down. -/
def entries (s : PhysMem) (root addr : Nat) : Option (List Word) :=
  trail pageFormat s.mem (vpath addr) 4 root

theorem copiedWord_spec {f : Nat} (hf : f < 2 ^ 40) (e : Word) :
    let e' := (frameAddress f &&& pageMask) |||
      (e &&& ~~~flagsCow &&& flagsMask) ||| flagsRw
    present e' = present e ∧ frameOf e' = f ∧ hasFlag e' flagsRw = true ∧
      hasFlag e' flagsCow = false ∧
      hasFlag e' flagsUser = hasFlag e flagsUser := by
  intro e'
  have hword : e' = frameAddress f |||
      ((e &&& ~~~flagsCow &&& flagsMask) ||| flagsRw) := by
    change (frameAddress f &&& pageMask) ||| _ ||| _ = _
    rw [frameAddress_pageMask hf, BitVec.or_assoc]
  have hmask : flagsMask &&& ~~~flagsMask = 0#64 := by decide
  have hbits : ((e &&& ~~~flagsCow &&& flagsMask) ||| flagsRw) &&&
      ~~~flagsMask = 0#64 := by
    apply flagBits_or _ (by decide)
    rw [BitVec.and_assoc, hmask, BitVec.and_zero]
  rw [hword, frameOf_join hf hbits, present_join hf, hasFlag_rw, hasFlag_cow,
    hasFlag_user, hasFlag_user, getLsbD_join hf _ (by decide),
    getLsbD_join hf _ (by decide), getLsbD_join hf _ (by decide), present,
    hasFlag_present]
  simp only [BitVec.getLsbD_or, BitVec.getLsbD_and, BitVec.getLsbD_not,
    getLsbD_flagsMask]
  simp [flagsCow, flagsRw]

theorem reusedWord_spec (e : Word) :
    let e' := (e &&& ~~~flagsCow) ||| flagsRw
    present e' = present e ∧ frameOf e' = frameOf e ∧
      hasFlag e' flagsRw = true ∧ hasFlag e' flagsCow = false ∧
      hasFlag e' flagsUser = hasFlag e flagsUser := by
  intro e'
  refine ⟨?_, ?_, ?_, ?_, ?_⟩
  · simp only [e', present, hasFlag_present, BitVec.getLsbD_or,
      BitVec.getLsbD_and, BitVec.getLsbD_not]
    simp [flagsCow, flagsRw]
  · apply frameOf_congr
    have hcow : ~~~flagsCow &&& ~~~flagsMask = ~~~flagsMask := by decide
    have hrw : flagsRw &&& ~~~flagsMask = 0#64 := by decide
    rw [BitVec.and_or_distrib_right, BitVec.and_assoc, hcow, hrw,
      BitVec.or_zero]
  · simp only [e', hasFlag_rw, BitVec.getLsbD_or]
    simp [flagsRw]
  · simp only [e', hasFlag_cow, BitVec.getLsbD_or, BitVec.getLsbD_and,
      BitVec.getLsbD_not]
    simp [flagsCow, flagsRw]
  · simp only [e', hasFlag_user, BitVec.getLsbD_or, BitVec.getLsbD_and,
      BitVec.getLsbD_not]
    simp [flagsCow, flagsRw]

/-- What resolving the fault on the page of `addr`, mapped by `e`, does. -/
structure Resolved (root : Nat) (rest : List (Nat × Nat)) (addr : Nat)
    (e e' : Word) (s s' : PhysMem) : Prop where
  usable : s'.usablePageCount = s.usablePageCount
  zero : s'.zeroPage = s.zeroPage
  rw : hasFlag e' flagsRw = true
  cow : hasFlag e' flagsCow = false
  user : hasFlag e' flagsUser = hasFlag e flagsUser
  self : ∃ links, ∀ a < lowerHalf, a / pageSize = addr / pageSize →
    entries s root a = some (links ++ [e]) ∧
      entries s' root a = some (links ++ [e'])
  other : ∀ a < lowerHalf, a / pageSize ≠ addr / pageSize →
    entries s' root a = entries s root a
  elsewhere : ∀ x ∈ rest, ∀ q, InRange q →
    leafWord pageFormat s'.mem q x.1 x.2 = leafWord pageFormat s.mem q x.1 x.2
  alone : s'.memoryBitmap (frameOf e') = 1
  bitmap : ∀ f, s.memoryBitmap f ≠ 0 → f ≠ frameOf e →
    s'.memoryBitmap f = s.memoryBitmap f
  copied : s'.mem (frameOf e') = s.mem (frameOf e)
  tables : ∀ f, forestTables pageFormat s'.mem ((4, root) :: rest) f =
    forestTables pageFormat s.mem ((4, root) :: rest) f
  fresh : frameOf e' = frameOf e ∨ s.memoryBitmap (frameOf e') = 0
  data : ∀ f < s.usablePageCount, s.memoryBitmap f ≠ 0 →
    forestTables pageFormat s.mem ((4, root) :: rest) f = 0 →
      s'.mem f = s.mem f

theorem cowHandler_unmapped {root addr : Nat} (h : pte s root addr = none) :
    cowHandler s root addr = .ok (false, s) := by
  rw [pte_eq] at h
  dsimp only at h
  rw [cowHandler]
  dsimp only
  split
  · rfl
  rename_i h4
  rw [if_pos (by simpa using h4)] at h
  split
  · rfl
  rename_i h3
  rw [if_pos (by simpa using h3)] at h
  split
  · rfl
  rename_i h2
  rw [if_pos (by simpa using h2)] at h
  split
  · rfl
  rename_i h1
  rw [if_pos (by simpa using h1)] at h
  cases h

theorem cowHandler_mapped {root addr pdpt pd pt : Nat}
    (hw : Walked s.mem root addr pdpt pd pt)
    (hpres : present (s.mem pt (vpath addr 1)) = true) :
    cowHandler s root addr = resolveCow s pt (vpath addr 1) := by
  obtain ⟨⟨h4, rfl⟩, ⟨h3, rfl⟩, h2, rfl⟩ := hw.links
  simp only [vpath_pt, vpath_pd, vpath_pdpt, vpath_pml4] at *
  rw [cowHandler]
  simp only [h4, h3, h2, hpres, Bool.not_true, Bool.false_eq_true, if_false]

theorem cowHandler_notCow {root addr : Nat} {e : Word}
    (h : pte s root addr = some e) (hcow : hasFlag e flagsCow = false) :
    cowHandler s root addr = .ok (false, s) := by
  obtain ⟨pdpt, pd, pt, hw, hpres, rfl⟩ := walked_of_pte h
  rw [cowHandler_mapped hw hpres, resolveCow]
  simp [hcow]

/-- The entries of every address after the leaf word of `addr` is written. -/
theorem entries_writeLeaf {root addr pdpt pd pt : Nat} {e' : Word}
    (hc : Counted s held ((4, root) :: rest)) (haddr : addr < lowerHalf)
    (hw : Walked s.mem root addr pdpt pd pt)
    (hpres : present (s.mem pt (vpath addr 1)) = true)
    (hpres' : present e' = true)
    (hmem : s'.mem = write s.mem pt (vpath addr 1) e') :
    (∃ links, ∀ a < lowerHalf, a / pageSize = addr / pageSize →
      entries s root a = some (links ++ [s.mem pt (vpath addr 1)]) ∧
        entries s' root a = some (links ++ [e'])) ∧
    ∀ a < lowerHalf, a / pageSize ≠ addr / pageSize →
      entries s' root a = entries s root a := by
  have hp := vpath_inRange haddr
  have hex := hc.exclusive (k := 0) (d := 3)
  obtain ⟨l1, hd1⟩ := hw.pt
  refine ⟨⟨l1, fun a ha hpage => ?_⟩, fun a ha hpage => ?_⟩
  · have hsame := (vpath_samePage haddr ha).mpr hpage
    constructor
    · have hdesc : descend pageFormat s.mem (vpath a) 1 3 root =
          some (l1, pt) := by
        rw [← hd1]
        exact descend_path_congr pageFormat fun j hlo hhi =>
          hsame j (by omega) hhi
      have hleaf : trail pageFormat s.mem (vpath a) 1 pt =
          some [s.mem pt (vpath addr 1)] := by
        rw [trail_succ, hsame 1 (by decide) (by decide)]
        exact if_pos hpres
      have htrail := trail_of_descend pageFormat hdesc
      rw [hleaf] at htrail
      exact htrail
    · have := trail_write_through pageFormat (k := 0) (d := 3) hp e' hex hd1
        hsame
      rw [entries, hmem]
      exact this.trans (if_pos hpres')
  · have hdiff := not_samePage fun h => hpage ((vpath_samePage haddr ha).mp h)
    rw [entries, hmem]
    exact trail_write_of_ne pageFormat (k := 0) (d := 3) hp (vpath_inRange ha)
      e' hex hd1 hdiff

theorem Counted.table_ne_free {k d t t₀ : Nat} {l : List Word} {p : Nat → Nat}
    (hc : Counted s held ((k + 1 + d, t) :: rest)) (hp : InRange p)
    (hd : descend pageFormat s.mem p (k + 1) d t = some (l, t₀)) :
    ∀ new < s.usablePageCount, s.memoryBitmap new = 0 → t₀ ≠ new := by
  rintro new hlt hfree rfl
  have hpos : 0 < tableCount pageFormat s.mem (k + 1 + d) t t₀ :=
    Nat.lt_of_lt_of_le (tableCount_self_pos pageFormat s.mem k t₀)
      (tableCount_descend_le pageFormat hp hd t₀)
  obtain ⟨-, hnotable, -⟩ := hc.fresh hlt hfree
  rw [forestTables_cons] at hnotable
  omega

theorem Counted.copyFree (hc : Counted s held trees) (src : Nat) {new : Nat}
    (hlt : new < s.usablePageCount) (hfree : s.memoryBitmap new = 0) :
    Counted (s.copyFrame src new) held trees ∧
      (∀ f, 0 < forestTables pageFormat s.mem trees f → ∀ i,
        (s.copyFrame src new).mem f i = s.mem f i) ∧
      ∀ x ∈ trees, ∀ f, 0 < tableCount pageFormat s.mem x.1 x.2 f → ∀ i,
        (s.copyFrame src new).mem f i = s.mem f i := by
  obtain ⟨-, hnotable, -⟩ := hc.fresh hlt hfree
  have hagree : ∀ f, 0 < forestTables pageFormat s.mem trees f → ∀ i,
      (s.copyFrame src new).mem f i = s.mem f i := by
    intro f hf i
    have hne : f ≠ new := by
      rintro rfl
      omega
    simp only [PhysMem.copyFrame, if_neg hne]
  exact ⟨hc.memCongr hagree rfl rfl, hagree, fun x hx f hf =>
    hagree f (Nat.lt_of_lt_of_le hf (tableCount_le_forestTables pageFormat s.mem hx f))⟩

theorem copied_spec {root addr pdpt pd pt new : Nat}
    (hc : Counted s held ((4, root) :: rest)) (haddr : addr < lowerHalf)
    (hw : Walked s.mem root addr pdpt pd pt)
    (hpres : present (s.mem pt (vpath addr 1)) = true)
    (hshared : 1 < s.memoryBitmap (frameOf (s.mem pt (vpath addr 1))))
    (hlt : new < s.usablePageCount) (hfree : s.memoryBitmap new = 0)
    {e' : Word} (he' : e' = (frameAddress new &&& pageMask) |||
      (s.mem pt (vpath addr 1) &&& ~~~flagsCow &&& flagsMask) ||| flagsRw)
    (husable : s'.usablePageCount = s.usablePageCount)
    (hzero : s'.zeroPage = s.zeroPage)
    (hbitmap : ∀ f, s'.memoryBitmap f = if f = new then 1
      else if f = frameOf (s.mem pt (vpath addr 1)) then s.memoryBitmap f - 1
      else s.memoryBitmap f)
    (hmem : s'.mem = write
      (s.copyFrame (frameOf (s.mem pt (vpath addr 1))) new).mem pt
      (vpath addr 1) e') :
    Counted s' held ((4, root) :: rest) ∧
      Resolved root rest addr (s.mem pt (vpath addr 1)) e' s s' := by
  have hp := vpath_inRange haddr
  set e := s.mem pt (vpath addr 1) with he
  obtain ⟨hpres', htarget', hrw', hcow', huser'⟩ := copiedWord_spec
    (Nat.lt_of_lt_of_le hlt s.usable_le) e
  rw [← he'] at hpres' htarget' hrw' hcow' huser'
  have hold : frameOf e ≠ new := by
    intro h
    rw [h] at hshared
    omega
  -- the copy alone changes no table
  set sc := s.copyFrame (frameOf e) new
  have hother : ∀ f, f ≠ new → sc.mem f = s.mem f := fun f hf => if_neg hf
  have hcopy : sc.mem new = s.mem (frameOf e) := if_pos rfl
  obtain ⟨hcsc, hagree, hagreeTree⟩ :=
    hc.copyFree (frameOf e) hlt hfree
  obtain ⟨l1, hd1⟩ := hw.pt
  have hpt : pt ≠ new := hc.table_ne_free (k := 0) (d := 3) hp hd1 new hlt hfree
  have hptWord : sc.mem pt (vpath addr 1) = e := by rw [hother pt hpt]
  have hdescend : ∀ k d, k + d = 4 → descend pageFormat sc.mem (vpath addr) k d
      root = descend pageFormat s.mem (vpath addr) k d root := by
    intro k d hkd
    apply descend_congr pageFormat hp
    rw [hkd]
    exact hagreeTree (4, root) (by simp)
  have hwsc : Walked sc.mem root addr pdpt pd pt := by
    refine ⟨?_, ?_, ?_⟩
    · rw [hdescend 3 1 rfl]
      exact hw.pdpt
    · rw [hdescend 2 2 rfl]
      exact hw.pd
    · rw [hdescend 1 3 rfl]
      exact hw.pt
  have hd1sc := (hdescend 1 3 rfl).trans hd1
  have hpresc : present (sc.mem pt (vpath addr 1)) = true := by
    rw [hptWord]
    exact hpres
  have hentriesc : ∀ a < lowerHalf, entries sc root a = entries s root a := by
    intro a ha
    exact trail_congr pageFormat (vpath_inRange ha)
      (hagreeTree (4, root) (by simp))
  obtain ⟨⟨links, hself⟩, hkeep⟩ := entries_writeLeaf hcsc haddr hwsc hpresc
    (hpres'.trans hpres) hmem
  have hset := hcsc.leafSet hp hd1sc e' hmem husable hzero
  refine ⟨hcsc.setLeaf (d := 3) hp hd1sc e' hmem husable ?_ ?_, ⟨husable,
    hzero, hrw', hcow', huser', ⟨links, ?_⟩, ?_, ?_, ?_, ?_, ?_, ?_, ?_, ?_⟩⟩
  · intro f _
    rw [hbitmap f, hptWord, hpres, hpres'.trans hpres, htarget']
    change _ = s.memoryBitmap f + _
    simp only [if_true]
    by_cases hnew : f = new
    · subst hnew
      simp [hold, hfree]
    · rw [if_neg hnew, if_neg (Ne.symm hnew)]
      by_cases hfe : f = frameOf e
      · subst hfe
        simp only [if_true]
        omega
      · rw [if_neg hfe, if_neg (Ne.symm hfe)]
  · intro _
    rw [htarget']
    exact hlt
  · intro a ha hpage
    rw [← hentriesc a ha, ← hptWord]
    exact hself a ha hpage
  · intro a ha hpage
    rw [hkeep a ha hpage, hentriesc a ha]
  · intro x hx q hq
    rw [hset.elsewhere x hx q hq]
    exact leafWord_congr pageFormat hq (hagreeTree x (by simp [hx]))
  · rw [htarget', hbitmap, if_pos rfl]
  · intro f hf hfe
    rw [hbitmap, if_neg (by rintro rfl; exact hf hfree), if_neg hfe]
  · rw [htarget', hmem]
    funext i
    rw [write_frame_ne _ _ _ (Ne.symm hpt), hcopy]
  · intro f
    rw [hset.tables f]
    exact forestWeight_congr pageFormat _ _ hagree
  · right
    rw [htarget']
    exact hfree
  · intro f hf hused htab
    have hfnew : f ≠ new := by
      rintro rfl
      exact hused hfree
    rw [hset.data f ((forestWeight_congr pageFormat _ _ hagree).trans htab),
      hother f hfnew]

/-- The fault resolved in place: the frame is mapped nowhere else. -/
theorem reused_spec {root addr pdpt pd pt : Nat}
    (hc : Counted s held ((4, root) :: rest)) (haddr : addr < lowerHalf)
    (hw : Walked s.mem root addr pdpt pd pt)
    (hpres : present (s.mem pt (vpath addr 1)) = true)
    (halone : s.memoryBitmap (frameOf (s.mem pt (vpath addr 1))) = 1)
    {e' : Word} (he' : e' = (s.mem pt (vpath addr 1) &&& ~~~flagsCow) ||| flagsRw)
    (husable : s'.usablePageCount = s.usablePageCount)
    (hzero : s'.zeroPage = s.zeroPage)
    (hbitmap : s'.memoryBitmap = s.memoryBitmap)
    (hmem : s'.mem = write s.mem pt (vpath addr 1) e') :
    Counted s' held ((4, root) :: rest) ∧
      Resolved root rest addr (s.mem pt (vpath addr 1)) e' s s' := by
  have hp := vpath_inRange haddr
  obtain ⟨l1, hd1⟩ := hw.pt
  obtain ⟨hpres', htarget', hrw', hcow', huser'⟩ := reusedWord_spec
    (s.mem pt (vpath addr 1))
  rw [← he'] at hpres' htarget' hrw' hcow' huser'
  obtain ⟨hself, hother⟩ := entries_writeLeaf hc haddr hw hpres
    (hpres'.trans hpres) hmem
  have hset := hc.leafSet hp hd1 e' hmem husable hzero
  have hpos : 0 < forestLeaves pageFormat s.mem ((4, root) :: rest)
      (frameOf (s.mem pt (vpath addr 1))) := by
    have hpte : pte s root addr = some (s.mem pt (vpath addr 1)) :=
      hw.leafWord.trans (if_pos hpres)
    exact (hc.mapped (by simp) haddr hpte).2.2
  have hlt := hc.leaf_lt _ hpos
  have hnotable : forestTables pageFormat s.mem ((4, root) :: rest)
      (frameOf (s.mem pt (vpath addr 1))) = 0 := by
    have := hc.exact _ hlt
    omega
  refine ⟨hc.setLeaf (d := 3) hp hd1 e' hmem husable ?_ ?_, ⟨husable, hzero,
    hrw', hcow', huser', hself, hother, hset.elsewhere, ?_, ?_, ?_,
    hset.tables, Or.inl htarget', fun f _ _ hf => hset.data f hf⟩⟩
  · intro f _
    rw [hbitmap, hpres', htarget']
  · intro _
    rw [htarget']
    exact hlt
  · rw [hbitmap, htarget', halone]
  · intro f _ _
    rw [hbitmap]
  · rw [htarget']
    exact hset.data _ hnotable

theorem write_write (m : Nat → Nat → Word) (t i : Nat) (e e' : Word) :
    write (write m t i e) t i e' = write m t i e' := by
  funext f j
  simp only [write]
  split <;> rfl

/-- What `cow_handler` does after its walk: nothing to a page without the mark; a page
whose frame is shared is copied to a free one, any other is mapped writable again. -/
theorem resolveCow_ok {pt i : Nat} {b : Bool}
    (hpt : ∀ new < s.usablePageCount, s.memoryBitmap new = 0 → pt ≠ new)
    (hok : resolveCow s pt i = .ok (b, s')) :
    let e := s.mem pt i
    (hasFlag e flagsCow = false ∧ b = false ∧ s' = s) ∨
    hasFlag e flagsCow = true ∧ b = true ∧ s'.usablePageCount = s.usablePageCount ∧
      s'.zeroPage = s.zeroPage ∧
      ((∃ new < s.usablePageCount, s.memoryBitmap new = 0 ∧
          1 < s.memoryBitmap (frameOf e) ∧
          (∀ f, s'.memoryBitmap f = if f = new then 1
            else if f = frameOf e then s.memoryBitmap f - 1 else s.memoryBitmap f) ∧
          s'.mem = write (s.copyFrame (frameOf e) new).mem pt i
            ((frameAddress new &&& pageMask) ||| (e &&& ~~~flagsCow &&& flagsMask) |||
              flagsRw)) ∨
        ¬ 1 < s.memoryBitmap (frameOf e) ∧ s'.memoryBitmap = s.memoryBitmap ∧
          s'.mem = write s.mem pt i ((e &&& ~~~flagsCow) ||| flagsRw)) := by
  intro e
  rw [resolveCow] at hok
  dsimp only at hok
  split at hok
  · rename_i hcow
    right
    split at hok
    · rename_i hshared
      rw [bind_ok] at hok
      obtain ⟨⟨new, s₁⟩, hget, hok⟩ := hok
      obtain ⟨hlt, hfree, rfl⟩ := getAvailableAddress_ok hget
      obtain ⟨rfl, rfl⟩ := Prod.mk.inj (Except.ok.inj hok)
      refine ⟨hcow, rfl, rfl, rfl, Or.inl ⟨new, hlt, hfree, hshared, fun f => ?_, ?_⟩⟩
      · simp only [PhysMem.writeWord_memoryBitmap, PhysMem.copyFrame, PhysMem.setCount]
        split
        · rfl
        · split
          · rename_i hf
            rw [hf]
          · rfl
      · simp only [PhysMem.writeWord_mem, PhysMem.copyFrame, PhysMem.setCount,
          if_neg (hpt new hlt hfree), e]
    · rename_i hsingle
      obtain ⟨rfl, rfl⟩ := Prod.mk.inj (Except.ok.inj hok)
      refine ⟨hcow, rfl, rfl, rfl, Or.inr ⟨hsingle, rfl, ?_⟩⟩
      rw [orWord, PhysMem.writeWord_mem, PhysMem.writeWord_mem, write_write, write_same]
  · rename_i hcow
    obtain ⟨rfl, rfl⟩ := Prod.mk.inj (Except.ok.inj hok)
    exact Or.inl ⟨by simpa using hcow, rfl, rfl⟩

/-- `cow_handler` on a copy-on-write page resolves the fault. -/
theorem cowHandler_spec {root addr : Nat} {e : Word} {b : Bool}
    (hc : Counted s held ((4, root) :: rest)) (haddr : addr < lowerHalf)
    (h : pte s root addr = some e) (hcow : hasFlag e flagsCow = true)
    (hok : cowHandler s root addr = .ok (b, s')) :
    b = true ∧ Counted s' held ((4, root) :: rest) ∧
      ∃ e', Resolved root rest addr e e' s s' := by
  obtain ⟨-, hused, -⟩ := hc.mapped (by simp) haddr h
  obtain ⟨pdpt, pd, pt, hw, hpres, rfl⟩ := walked_of_pte h
  obtain ⟨l1, hd1⟩ := hw.pt
  rw [cowHandler_mapped hw hpres] at hok
  rcases resolveCow_ok (hc.table_ne_free (k := 0) (d := 3) (vpath_inRange haddr) hd1) hok with
    ⟨hnot, -⟩ | ⟨-, rfl, husable, hzero, hcases⟩
  · rw [hcow] at hnot
    cases hnot
  · rcases hcases with ⟨new, hlt, hfree, hshared, hbitmap, hmem⟩ | ⟨hsingle, hbitmap, hmem⟩
    · obtain ⟨hc', hres⟩ := copied_spec hc haddr hw hpres hshared hlt hfree rfl husable hzero
        hbitmap hmem
      exact ⟨rfl, hc', _, hres⟩
    · obtain ⟨hc', hres⟩ := reused_spec hc haddr hw hpres (by omega) rfl husable hzero hbitmap
        hmem
      exact ⟨rfl, hc', _, hres⟩

end GlitchedOS
