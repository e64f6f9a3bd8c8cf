/-
`clone_page_tables`.  The copy is built table by table; what has been copied
after `n` words of a table is `CloneUpTo`, and one word more takes it one on,
whether the word maps a page or links a table that is cloned in turn.
-/
import GlitchedOS.Paging.Cow

namespace GlitchedOS

open Radix

variable {s s' s'' : PhysMem} {held : Nat → Nat} {rest : List (Nat × Nat)}
variable {l : List Word} {p q : Nat → Nat} {m : Nat → Nat → Word} {root k d src new n : Nat}

/-! ### Shared words -/

/-- What cloning makes of a leaf word, in the source and in the copy. -/
def shareWord (e : Word) : Word :=
  if hasFlag e flagsRw then (e &&& ~~~flagsRw) ||| flagsCow else e

theorem shareWord_address (e : Word) :
    pageTableToAddress (shareWord e) = pageTableToAddress e := by
  rw [shareWord]
  split
  · have hrw : ~~~flagsRw &&& ~~~flagsMask = ~~~flagsMask := by decide
    have hcow : flagsCow &&& ~~~flagsMask = 0#64 := by decide
    rw [pageTableToAddress, pageTableToAddress, BitVec.and_or_distrib_right,
      BitVec.and_assoc, hrw, hcow, BitVec.or_zero]
  · rfl

theorem frameOf_shareWord (e : Word) : frameOf (shareWord e) = frameOf e := by
  rw [frameOf, frameOf, shareWord_address]

theorem present_shareWord (e : Word) : present (shareWord e) = present e := by
  rw [shareWord]
  split
  · rw [present, present, hasFlag_present, hasFlag_present, BitVec.getLsbD_or,
      BitVec.getLsbD_and, BitVec.getLsbD_not]
    simp [flagsRw, flagsCow]
  · rfl

theorem shareWord_rw (e : Word) : hasFlag (shareWord e) flagsRw = false := by
  rw [shareWord]
  split
  · rw [hasFlag_rw, BitVec.getLsbD_or, BitVec.getLsbD_and, BitVec.getLsbD_not]
    simp [flagsRw, flagsCow]
  · rename_i h
    simpa using h

theorem shareWord_cow (e : Word) : hasFlag (shareWord e) flagsCow =
    (hasFlag e flagsRw || hasFlag e flagsCow) := by
  rw [shareWord]
  split
  · rename_i h
    rw [h, hasFlag_cow, BitVec.getLsbD_or]
    simp [flagsCow]
  · rename_i h
    rw [Bool.not_eq_true] at h
    rw [h, Bool.false_or]

theorem shareWord_join (e : Word) :
    pageTableToAddress e ||| (shareWord e &&& flagsMask) = shareWord e := by
  rw [← shareWord_address, address_or_flags]

theorem cloneLink_spec {f : Nat} (hf : f < 2 ^ 40) {e : Word} (hpres : present e = true) :
    present ((frameAddress f &&& pageMask) ||| (e &&& higherLevelFlags)) = true ∧
      frameOf ((frameAddress f &&& pageMask) ||| (e &&& higherLevelFlags)) =
        f := by
  have hbits : (e &&& higherLevelFlags) &&& ~~~flagsMask = 0#64 := by
    have : higherLevelFlags &&& ~~~flagsMask = 0#64 := by decide
    rw [BitVec.and_assoc, this, BitVec.and_zero]
  rw [frameAddress_pageMask hf, present_join hf, frameOf_join hf hbits]
  rw [present, hasFlag_present] at hpres
  rw [BitVec.getLsbD_and, hpres]
  exact ⟨by decide, rfl⟩

/-! ### Paths through a table -/

/-- `q` passes the table of height `h` that `p` passes. -/
def Below (p : Nat → Nat) (h : Nat) (q : Nat → Nat) : Prop :=
  ∀ j, h < j → j ≤ 4 → q j = p j

/-- The path that follows `p` down to height `h` and `q` from there on. -/
def graft (p : Nat → Nat) (h : Nat) (q : Nat → Nat) : Nat → Nat :=
  fun j => if j ≤ h then q j else p j

theorem graft_inRange (hp : InRange p) (hq : InRange q)
    (h : Nat) : InRange (graft p h q) := by
  intro j
  rw [graft]
  split
  · exact hq j
  · exact hp j

theorem below_graft (p q : Nat → Nat) (h : Nat) : Below p h (graft p h q) := by
  intro j hlo _
  exact if_neg (by omega)

theorem graft_of_le {h j : Nat} (hj : j ≤ h) :
    graft p h q j = q j := if_pos hj

theorem below_update {h : Nat} (hh : h + 1 ≤ 4) :
    Below (Function.update p (h + 1) n) h q ↔
      Below p (h + 1) q ∧ q (h + 1) = n := by
  constructor
  · intro hb
    refine ⟨fun j hlo hhi => ?_, ?_⟩
    · rw [hb j (by omega) hhi, Function.update_of_ne (by omega)]
    · rw [hb (h + 1) (by omega) hh, Function.update_self]
  · rintro ⟨hb, hn⟩ j hlo hhi
    by_cases hj : j = h + 1
    · subst hj
      rw [hn, Function.update_self]
    · rw [Function.update_of_ne hj]
      exact hb j (by omega) hhi

/-- A leaf word seen from the root is the one seen from a table on the way. -/
theorem leafWord_below (hheight : k + 1 + d = 4)
    (hd : descend pageFormat m p (k + 1) d root = some (l, src))
    (hb : Below p (k + 1) q) :
    leafWord pageFormat m q 4 root = leafWord pageFormat m q (k + 1) src := by
  have hq : descend pageFormat m q (k + 1) d root = some (l, src) := by
    rw [← hd]
    exact descend_path_congr pageFormat fun j hlo hhi => hb j hlo (by omega)
  have := leafWord_of_descend pageFormat hq
  rwa [hheight] at this

theorem leafWord_graft (hheight : k + 1 + d = 4)
    (hd : descend pageFormat m p (k + 1) d root = some (l, src)) :
    leafWord pageFormat m (graft p (k + 1) q) 4 root =
      leafWord pageFormat m q (k + 1) src := by
  rw [leafWord_below hheight hd (below_graft p q (k + 1))]
  exact leafWord_path_congr pageFormat fun j _ hj => graft_of_le hj

/-! ### The copy so far -/

/-- How often the first `n` words of a table lead to leaves that map `f`. -/
def leavesBehind (m : Nat → Nat → Word) (level n t f : Nat) : Nat :=
  ∑ i ∈ Finset.range n, entryWeight pageFormat m (fun _ => 0)
    (fun x => if x = f then 1 else 0) level (m t i)

theorem leafCount_eq (m : Nat → Nat → Word) (level t f : Nat) :
    leafCount pageFormat m (level + 1) t f =
      leavesBehind m level (pageFormat.width (level + 1)) t f := by
  rw [leafCount, weight_succ, Nat.zero_add]
  rfl

theorem leavesBehind_succ_present {level t : Nat}
    (hpres : present (m t n) = true) (f : Nat) :
    leavesBehind m level (n + 1) t f = leavesBehind m level n t f +
      leafCount pageFormat m level (frameOf (m t n)) f := by
  rw [leavesBehind, Finset.sum_range_succ]
  exact congrArg _ (if_pos hpres)

theorem leavesBehind_succ_absent {level t : Nat}
    (habs : present (m t n) = false) (f : Nat) :
    leavesBehind m level (n + 1) t f = leavesBehind m level n t f := by
  rw [leavesBehind, Finset.sum_range_succ]
  refine congrArg _ (if_neg ?_)
  change ¬ present (m t n) = true
  rw [habs]
  exact Bool.false_ne_true

theorem leavesBehind_mono (m : Nat → Nat → Word) (level t f : Nat) {n' : Nat}
    (h : n ≤ n') : leavesBehind m level n t f ≤ leavesBehind m level n' t f :=
  Finset.sum_le_sum_of_subset (Finset.range_mono h)

/-- A frame `get_available_address` cannot return. -/
def InUse (s : PhysMem) (f : Nat) : Prop :=
  f < s.usablePageCount → s.memoryBitmap f ≠ 0

theorem Counted.table_inUse {trees : List (Nat × Nat)} (hc : Counted s held trees) {f : Nat}
    (hf : 0 < forestTables pageFormat s.mem trees f) : InUse s f := by
  intro hlt
  rw [hc.exact f hlt]
  omega

/-- The state `s'` reached from `s` when the first `n` words of the table `src`
of height `k + 1`, on the path `p` of `root`, have been copied to `new`. -/
structure CloneUpTo (held : Nat → Nat) (root : Nat) (rest : List (Nat × Nat))
    (p : Nat → Nat) (k src new n : Nat) (s s' : PhysMem) : Prop where
  counted : Counted s' held ((k + 1, new) :: (4, root) :: rest)
  usable : s'.usablePageCount = s.usablePageCount
  zero : s'.zeroPage = s.zeroPage
  fresh : new < s.usablePageCount ∧ s.memoryBitmap new = 0
  todo : ∀ i, n ≤ i → i < pageFormat.width (k + 1) →
    present (s'.mem new i) = false
  copied : ∀ q, InRange q → q (k + 1) < n →
    leafWord pageFormat s'.mem q (k + 1) new =
      (leafWord pageFormat s.mem q (k + 1) src).map shareWord
  notCopied : ∀ q, InRange q → ¬ q (k + 1) < n →
    leafWord pageFormat s'.mem q (k + 1) new = none
  shared : ∀ q, InRange q → Below p (k + 1) q → q (k + 1) < n →
    leafWord pageFormat s'.mem q 4 root =
      (leafWord pageFormat s.mem q 4 root).map shareWord
  notShared : ∀ q, InRange q → ¬ (Below p (k + 1) q ∧ q (k + 1) < n) →
    leafWord pageFormat s'.mem q 4 root = leafWord pageFormat s.mem q 4 root
  elsewhere : ∀ x ∈ rest, ∀ q, InRange q →
    leafWord pageFormat s'.mem q x.1 x.2 = leafWord pageFormat s.mem q x.1 x.2
  bitmap : ∀ f, s.memoryBitmap f ≠ 0 →
    s'.memoryBitmap f = s.memoryBitmap f + leavesBehind s.mem k n src f
  tables : ∀ f, InUse s f →
    forestTables pageFormat s'.mem ((k + 1, new) :: (4, root) :: rest) f =
      forestTables pageFormat s.mem ((4, root) :: rest) f
  shape : ∀ f, InUse s f → ∀ i,
    present (s'.mem f i) = present (s.mem f i) ∧
      frameOf (s'.mem f i) = frameOf (s.mem f i)
  data : ∀ f, InUse s f →
    forestTables pageFormat s.mem ((4, root) :: rest) f = 0 →
      s'.mem f = s.mem f

/-- Nothing is copied yet when the new table has been allocated. -/
theorem CloneUpTo.start (hc : Counted s held ((4, root) :: rest))
    (h : allocatePhysicalPage s = .ok (new, s')) (p : Nat → Nat) (k src : Nat) :
    CloneUpTo held root rest p k src new 0 s s' := by
  obtain ⟨hlt, hfree, -⟩ := allocatePhysicalPage_ok h
  obtain ⟨hgrow, hnil, hother⟩ := hc.grows_allocatePhysicalPage h
  have hempty : ∀ i, present (s'.mem new i) = false := by
    intro i
    rw [hnil]
    exact present_zero
  have hne : ∀ f, InUse s f → f ≠ new := by
    rintro f hf rfl
    exact hf hlt hfree
  have hagree : ∀ f, 0 < forestTables pageFormat s.mem ((4, root) :: rest) f →
      ∀ i, s'.mem f i = s.mem f i := by
    intro f hf i
    rw [hother f (hne f (hc.table_inUse hf))]
  refine ⟨hc.allocatePhysicalPage h k, hgrow.usable, hgrow.zero, ⟨hlt, hfree⟩,
    fun i _ _ => hempty i, fun q _ hlt => absurd hlt (Nat.not_lt_zero _),
    fun q _ _ => leafWord_of_empty pageFormat (hempty _),
    fun q _ _ hlt => absurd hlt (Nat.not_lt_zero _), ?_, ?_, ?_, ?_, ?_, ?_⟩
  · intro q hq _
    exact hgrow.leaf (4, root) (by simp) q hq
  · intro x hx q hq
    exact hgrow.leaf x (by simp [hx]) q hq
  · intro f hf
    rw [hgrow.bitmap f hf]
    rfl
  · intro f hf
    rw [forestTables_cons, tableCount, weight_of_empty pageFormat _ _
      (fun i _ => hempty i), if_neg (Ne.symm (hne f hf)), Nat.zero_add]
    exact forestWeight_congr pageFormat _ _ hagree
  · intro f hf i
    rw [hother f (hne f hf)]
    exact ⟨rfl, rfl⟩
  · intro f hf _
    exact hother f (hne f hf)

/-- An absent word is copied by doing nothing. -/
theorem CloneUpTo.skip (h : CloneUpTo held root rest p k src new n s s')
    (hheight : k + 1 + d = 4)
    (hd : descend pageFormat s.mem p (k + 1) d root = some (l, src))
    (habs : present (s.mem src n) = false) :
    CloneUpTo held root rest p k src new (n + 1) s s' := by
  have hnone : ∀ q, q (k + 1) = n →
      leafWord pageFormat s.mem q (k + 1) src = none := by
    intro q hq
    apply leafWord_of_empty
    rw [hq]
    exact habs
  refine ⟨h.counted, h.usable, h.zero, h.fresh,
    fun i hi => h.todo i (by omega), ?_, ?_, ?_, ?_, h.elsewhere, ?_, h.tables,
    h.shape, h.data⟩
  · intro q hq hlt
    by_cases hn : q (k + 1) = n
    · rw [h.notCopied q hq (by omega), hnone q hn]
      rfl
    · exact h.copied q hq (by omega)
  · intro q hq hlt
    exact h.notCopied q hq (by omega)
  · intro q hq hb hlt
    by_cases hn : q (k + 1) = n
    · rw [h.notShared q hq (fun hcontra => by omega),
        leafWord_below hheight hd hb, hnone q hn]
      rfl
    · exact h.shared q hq hb (by omega)
  · intro q hq hnot
    exact h.notShared q hq fun hcontra => hnot ⟨hcontra.1, by omega⟩
  · intro f hf
    rw [h.bitmap f hf, leavesBehind_succ_absent habs]

/-- The tables of the source are in use, so the copy keeps their shape. -/
theorem CloneUpTo.shapeBelow (h : CloneUpTo held root rest p k src new n s s')
    (hc : Counted s held ((4, root) :: rest)) (hheight : k + 1 + d = 4)
    (hp : InRange p)
    (hd : descend pageFormat s.mem p (k + 1) d root = some (l, src)) :
    InUse s src ∧
      (∀ f, 0 < tableCount pageFormat s.mem 4 root f → ∀ i,
        pageFormat.present (s'.mem f i) = pageFormat.present (s.mem f i) ∧
          pageFormat.target (s'.mem f i) = pageFormat.target (s.mem f i)) ∧
      ∃ l', descend pageFormat s'.mem p (k + 1) d root = some (l', src) := by
  have huse : ∀ f, 0 < tableCount pageFormat s.mem 4 root f → InUse s f := by
    intro f hf
    apply hc.table_inUse
    rw [forestTables_cons]
    omega
  have hshape := fun f hf => h.shape f (huse f hf)
  refine ⟨huse src ?_, hshape, ?_⟩
  · have := Nat.lt_of_lt_of_le (tableCount_self_pos pageFormat s.mem k src)
      (tableCount_descend_le pageFormat hp hd src)
    rwa [hheight] at this
  · refine descend_shapeCongr pageFormat hp ?_ hd
    rw [hheight]
    exact hshape

/-! ### Sharing a page -/

theorem write_self (m : Nat → Nat → Word) (t i : Nat) :
    write m t i (m t i) = m := by
  funext f j
  simp only [write]
  split
  · rename_i h
    rw [h.1, h.2]
  · rfl

theorem cloneLeaf_absent
    (habs : present (s.mem src n) = false) : cloneLeaf src new n s = s := by
  rw [cloneLeaf]
  dsimp only
  rw [habs]
  rfl

theorem cloneLeaf_present (hpres : present (s.mem src n) = true) :
    cloneLeaf src new n s =
      ((s.writeWord src n (shareWord (s.mem src n))).incCount
        (frameOf (s.mem src n))).writeWord new n
          (shareWord (s.mem src n)) := by
  have hsrc : (if hasFlag (s.mem src n) flagsRw then
      s.writeWord src n ((s.mem src n &&& ~~~flagsRw) ||| flagsCow) else s) =
      s.writeWord src n (shareWord (s.mem src n)) := by
    rw [shareWord]
    split
    · rfl
    · rw [PhysMem.writeWord, write_self]
  rw [cloneLeaf]
  dsimp only
  rw [if_pos hpres, hsrc, PhysMem.incCount_mem, PhysMem.writeWord_mem,
    write_same, shareWord_join]

/-- What sharing the page at the end of `p`, mapped by `e`, does. -/
structure PageShared (held : Nat → Nat) (root : Nat) (rest : List (Nat × Nat))
    (p : Nat → Nat) (src new : Nat) (e : Word) (s s' : PhysMem) : Prop where
  counted : Counted s' held ((1, new) :: (4, root) :: rest)
  usable : s'.usablePageCount = s.usablePageCount
  zero : s'.zeroPage = s.zeroPage
  bitmap : ∀ f, s'.memoryBitmap f =
    s.memoryBitmap f + if frameOf e = f then 1 else 0
  mem : s'.mem = write (write s.mem src (p 1) (shareWord e)) new (p 1)
    (shareWord e)
  copied : ∀ q, q 1 = p 1 → leafWord pageFormat s'.mem q 1 new =
    some (shareWord e)
  notCopied : ∀ q, InRange q → q 1 ≠ p 1 →
    leafWord pageFormat s'.mem q 1 new = leafWord pageFormat s.mem q 1 new
  shared : ∀ q, InRange q → SamePage p q →
    leafWord pageFormat s'.mem q 4 root = some (shareWord e)
  notShared : ∀ q, InRange q → ¬ SamePage p q →
    leafWord pageFormat s'.mem q 4 root = leafWord pageFormat s.mem q 4 root
  elsewhere : ∀ x ∈ rest, ∀ q, InRange q →
    leafWord pageFormat s'.mem q x.1 x.2 = leafWord pageFormat s.mem q x.1 x.2
  tables : ∀ f, forestTables pageFormat s'.mem
      ((1, new) :: (4, root) :: rest) f =
    forestTables pageFormat s.mem ((1, new) :: (4, root) :: rest) f

theorem cloneLeaf_spec
    (hc : Counted s held ((1, new) :: (4, root) :: rest)) (hp : InRange p)
    (hd : descend pageFormat s.mem p 1 3 root = some (l, src))
    (hpres : present (s.mem src (p 1)) = true)
    (habs : present (s.mem new (p 1)) = false)
    (hroom : s.memoryBitmap (frameOf (s.mem src (p 1))) + 1 < 2 ^ 32) :
    PageShared held root rest p src new (s.mem src (p 1)) s
      (cloneLeaf src new (p 1) s) := by
  rw [cloneLeaf_present hpres]
  set e := s.mem src (p 1) with he
  set sa := s.writeWord src (p 1) (shareWord e) with hsa
  set s' := (sa.incCount (frameOf e)).writeWord new (p 1) (shareWord e)
  have hpresShare : present (shareWord e) = true := by
    rw [present_shareWord]
    exact hpres
  have hswap := hc.perm (List.Perm.swap (4, root) (1, new) rest)
  have hlt : frameOf e < s.usablePageCount := by
    apply hswap.leaf_lt
    have hword : leafWord pageFormat s.mem p 4 root = some e := by
      refine (leafWord_of_descend pageFormat (k := 0) hd).trans ?_
      exact (leafWord_one pageFormat s.mem p src).trans (if_pos hpres)
    exact Nat.lt_of_lt_of_le (leafCount_pos_of_leafWord pageFormat hp hword)
      (leafCount_le_forestLeaves pageFormat s.mem (x := (4, root)) (by simp) _)
  -- the source word, then the word of the copy
  have hca : Counted sa held ((4, root) :: (1, new) :: rest) := by
    refine hswap.setLeaf (d := 3) hp hd (shareWord e) rfl rfl ?_ ?_
    · intro f _
      rw [present_shareWord, frameOf_shareWord]
      rfl
    · intro _
      rw [frameOf_shareWord]
      exact hlt
  have hseta : LeafSet root ((1, new) :: rest) p (some (shareWord e)) s sa := by
    have hset : LeafSet root ((1, new) :: rest) p
        (if present (shareWord e) then some (shareWord e) else none) s sa :=
      hswap.leafSet hp hd (shareWord e) rfl rfl rfl
    rwa [if_pos hpresShare] at hset
  have hca' : Counted sa held ((0 + 1 + 0, new) :: (4, root) :: rest) :=
    hca.perm (List.Perm.swap (1, new) (4, root) rest)
  have hne : new ≠ src := by
    rintro rfl
    have hpos : 0 < tableCount pageFormat s.mem 4 root new :=
      Nat.lt_of_lt_of_le (tableCount_self_pos pageFormat s.mem 0 new)
        (tableCount_descend_le pageFormat hp hd new)
    have hself : 0 < tableCount pageFormat s.mem 1 new new :=
      tableCount_self_pos pageFormat s.mem 0 new
    have := hc.once new
    rw [forestTables_cons, forestTables_cons] at this
    omega
  have habsa : present (sa.mem new (p 1)) = false := by
    rw [hsa, PhysMem.writeWord_mem, write_frame_ne _ _ _ hne]
    exact habs
  have hbitmap : ∀ f, s'.memoryBitmap f =
      s.memoryBitmap f + if frameOf e = f then 1 else 0 :=
    PhysMem.incCount_memoryBitmap sa hroom
  obtain ⟨hself, hother, hrest⟩ := leafWord_setLeaf pageFormat (d := 0)
    (t := new) (l := []) hp (shareWord e) hca'.tables_le_one rfl
  have htables := hca'.forestTables_setLeaf (d := 0) (l := []) hp rfl
    (shareWord e)
  refine ⟨hca'.setLeaf (d := 0) (l := []) hp rfl (shareWord e) rfl rfl ?_ ?_,
    rfl, rfl, hbitmap, rfl, ?_, ?_, ?_, ?_, ?_, ?_⟩
  · intro f _
    rw [hbitmap f, habsa, present_shareWord, frameOf_shareWord,
      show present e = true from hpres]
    rfl
  · intro _
    rw [frameOf_shareWord]
    exact hlt
  · intro q hq
    refine (hself q fun j hlo hhi => ?_).trans (if_pos hpresShare)
    obtain rfl : j = 1 := by omega
    exact hq
  · intro q hq hdiff
    exact (hother q hq ⟨1, by decide, by decide, hdiff⟩).trans
      (hseta.elsewhere (1, new) (by simp) q hq)
  · intro q hq hsame
    exact (hrest (4, root) (by simp) q hq).trans (hseta.self q hsame)
  · intro q hq hdiff
    exact (hrest (4, root) (by simp) q hq).trans (hseta.other q hq hdiff)
  · intro x hx q hq
    exact (hrest x (by simp [hx]) q hq).trans
      (hseta.elsewhere x (by simp [hx]) q hq)
  · intro f
    refine (htables f).trans (Eq.trans ?_ ((hseta.tables f).trans ?_))
    · exact forestWeight_perm pageFormat _ _ _ (List.Perm.swap _ _ rest)
    · exact forestWeight_perm pageFormat _ _ _ (List.Perm.swap _ _ rest)

/-- The word copied next has not been touched yet, and there is room in the count of
its frame. -/
theorem CloneUpTo.leaf_ready (h : CloneUpTo held root rest p 0 src new n s s')
    (hc : Counted s held ((4, root) :: rest)) (hp : InRange p)
    (hd : descend pageFormat s.mem p 1 3 root = some (l, src))
    (hn : n < 512)
    (hroom : ∀ f, 0 < leafCount pageFormat s.mem 1 src f →
      s.memoryBitmap f + leafCount pageFormat s.mem 1 src f < 2 ^ 32)
    (hpres : present (s.mem src n) = true) :
    s'.mem src n = s.mem src n ∧ s'.memoryBitmap (frameOf (s.mem src n)) ≠ 0 ∧
      s'.memoryBitmap (frameOf (s.mem src n)) + 1 < 2 ^ 32 := by
  obtain ⟨huse, -, l', hd'⟩ := h.shapeBelow hc rfl hp hd
  set q₀ := Function.update p 1 n with hq₀
  have hq₀n : q₀ 1 = n := Function.update_self ..
  have hq₀r : InRange q₀ := inRange_update pageFormat hp hn
  have hbq₀ : Below p 1 q₀ := by
    intro j hlo _
    exact Function.update_of_ne (by omega) ..
  have hcount : leavesBehind s.mem 0 (n + 1) src (frameOf (s.mem src n)) =
      leavesBehind s.mem 0 n src (frameOf (s.mem src n)) + 1 := by
    rw [leavesBehind_succ_present hpres, leafCount]
    simp [weight]
  have hbound : leavesBehind s.mem 0 (n + 1) src (frameOf (s.mem src n)) ≤
      leavesBehind s.mem 0 512 src (frameOf (s.mem src n)) :=
    leavesBehind_mono s.mem 0 src _ hn
  have hleaves := leafCount_eq s.mem 0 src (frameOf (s.mem src n))
  rw [show pageFormat.width (0 + 1) = 512 from rfl, Nat.zero_add] at hleaves
  have hused : s.memoryBitmap (frameOf (s.mem src n)) ≠ 0 := by
    have hpos : 0 < forestLeaves pageFormat s.mem ((4, root) :: rest)
        (frameOf (s.mem src n)) := by
      have hleaf : leafWord pageFormat s.mem q₀ 4 root =
          some (s.mem src n) := by
        rw [leafWord_below rfl hd hbq₀, leafWord_one, hq₀n]
        exact if_pos hpres
      exact Nat.lt_of_lt_of_le
        (leafCount_pos_of_leafWord pageFormat hq₀r hleaf)
        (leafCount_le_forestLeaves pageFormat s.mem (x := (4, root))
          (by simp) _)
    rw [hc.exact _ (hc.leaf_lt _ hpos)]
    omega
  refine ⟨?_, ?_, ?_⟩
  · have hsame := h.notShared q₀ hq₀r fun hcontra =>
      absurd hcontra.2 (show ¬ q₀ 1 < n by omega)
    rw [leafWord_below rfl hd' hbq₀, leafWord_below rfl hd hbq₀,
      leafWord_one, leafWord_one, hq₀n] at hsame
    rw [show pageFormat.present (s.mem src n) = true from hpres,
      show pageFormat.present (s'.mem src n) = true from
        (h.shape src huse n).1.trans hpres] at hsame
    exact Option.some.inj hsame
  · rw [h.bitmap _ hused]
    omega
  · rw [h.bitmap _ hused]
    have := hroom (frameOf (s.mem src n)) (by omega)
    omega

/-- One word of a PT copied. -/
theorem CloneUpTo.leafStep (h : CloneUpTo held root rest p 0 src new n s s')
    (hc : Counted s held ((4, root) :: rest)) (hp : InRange p)
    (hd : descend pageFormat s.mem p 1 3 root = some (l, src))
    (hn : n < 512)
    (hroom : ∀ f, 0 < leafCount pageFormat s.mem 1 src f →
      s.memoryBitmap f + leafCount pageFormat s.mem 1 src f < 2 ^ 32) :
    CloneUpTo held root rest p 0 src new (n + 1) s
      (cloneLeaf src new n s') := by
  obtain ⟨huse, -, l', hd'⟩ := h.shapeBelow hc rfl hp hd
  cases hpres : present (s.mem src n) with
  | false =>
      rw [cloneLeaf_absent ((h.shape src huse n).1.trans hpres)]
      exact h.skip rfl hd hpres
  | true =>
      set q₀ := Function.update p 1 n with hq₀
      have hq₀n : q₀ 1 = n := Function.update_self ..
      have hq₀r : InRange q₀ := inRange_update pageFormat hp hn
      have hbq₀ : Below p 1 q₀ := by
        intro j hlo _
        exact Function.update_of_ne (by omega) ..
      have hsamePage : ∀ q, SamePage q₀ q ↔ Below p 1 q ∧ q 1 = n := by
        intro q
        constructor
        · intro hsame
          refine ⟨fun j hlo hhi => ?_, (hsame 1 (by decide) (by decide)).trans
            hq₀n⟩
          exact (hsame j (by omega) hhi).trans (hbq₀ j hlo hhi)
        · rintro ⟨hb, hqn⟩ j hlo hhi
          by_cases hj : j = 1
          · subst hj
            rw [hqn, hq₀n]
          · rw [hb j (by omega) hhi, hbq₀ j (by omega) hhi]
      obtain ⟨hword, -, hfits⟩ := h.leaf_ready hc hp hd hn hroom hpres
      have hd₀ : descend pageFormat s'.mem q₀ 1 3 root = some (l', src) := by
        rw [← hd']
        exact descend_path_congr pageFormat fun j hlo hhi => hbq₀ j hlo hhi
      have hstep := cloneLeaf_spec h.counted hq₀r hd₀
        (by rw [hq₀n, hword]; exact hpres)
        (by rw [hq₀n]; exact h.todo n (Nat.le_refl _) hn)
        (by rw [hq₀n, hword]; exact hfits)
      rw [hq₀n, hword] at hstep
      have hne : ∀ f, InUse s f → f ≠ new := by
        rintro f hf rfl
        exact hf h.fresh.1 h.fresh.2
      refine ⟨hstep.counted, hstep.usable.trans h.usable,
        hstep.zero.trans h.zero, h.fresh, ?_, ?_, ?_, ?_, ?_, ?_, ?_, ?_, ?_,
        ?_⟩
      · intro i hi hlt
        rw [hstep.mem, write_word_ne _ _ _ _ (by omega),
          write_word_ne _ _ _ _ (by omega)]
        exact h.todo i (by omega) hlt
      · intro q hq hlt
        have hlt : q 1 < n + 1 := hlt
        by_cases hqn : q 1 = n
        · rw [hstep.copied q (hqn.trans hq₀n.symm), leafWord_one, hqn]
          rw [show pageFormat.present (s.mem src n) = true from hpres]
          rfl
        · rw [hstep.notCopied q hq (by rwa [hq₀n])]
          exact h.copied q hq (show q 1 < n by omega)
      · intro q hq hlt
        have hlt : ¬ q 1 < n + 1 := hlt
        rw [hstep.notCopied q hq (by omega)]
        exact h.notCopied q hq (show ¬ q 1 < n by omega)
      · intro q hq hb hlt
        have hlt : q 1 < n + 1 := hlt
        by_cases hqn : q 1 = n
        · rw [hstep.shared q hq ((hsamePage q).mpr ⟨hb, hqn⟩),
            leafWord_below rfl hd hb, leafWord_one, hqn]
          rw [show pageFormat.present (s.mem src n) = true from hpres]
          rfl
        · rw [hstep.notShared q hq fun hs => hqn ((hsamePage q).mp hs).2]
          exact h.shared q hq hb (show q 1 < n by omega)
      · intro q hq hnot
        rw [hstep.notShared q hq fun hs => hnot ⟨((hsamePage q).mp hs).1, by
          have := ((hsamePage q).mp hs).2
          exact (show q 1 < n + 1 by omega)⟩]
        exact h.notShared q hq fun hcontra =>
          hnot ⟨hcontra.1, Nat.lt_succ_of_lt hcontra.2⟩
      · intro x hx q hq
        rw [hstep.elsewhere x hx q hq, h.elsewhere x hx q hq]
      · intro f hf
        rw [hstep.bitmap f, h.bitmap f hf, leavesBehind_succ_present hpres,
          Nat.add_assoc]
        rfl
      · intro f hf
        rw [hstep.tables f]
        exact h.tables f hf
      · intro f hf i
        rw [hstep.mem, write_frame_ne _ _ _ (hne f hf)]
        by_cases hword' : f = src ∧ i = n
        · obtain ⟨rfl, rfl⟩ := hword'
          rw [hq₀n, write_same, present_shareWord, frameOf_shareWord]
          exact ⟨rfl, rfl⟩
        · have hkeep : write s'.mem src (q₀ 1) (shareWord (s.mem src n)) f i =
              s'.mem f i := by
            rw [hq₀n, write]
            exact if_neg hword'
          rw [hkeep]
          exact h.shape f hf i
      · intro f hf htab
        have hsrc : f ≠ src := by
          rintro rfl
          have hpos : 0 < tableCount pageFormat s.mem 4 root f :=
            Nat.lt_of_lt_of_le (tableCount_self_pos pageFormat s.mem 0 f)
              (tableCount_descend_le pageFormat hp hd f)
          rw [forestTables_cons] at htab
          omega
        rw [← h.data f hf htab]
        funext i
        rw [hstep.mem, write_frame_ne _ _ _ (hne f hf),
          write_frame_ne _ _ _ hsrc]

/-! ### Cloning a table -/

/-- Enough room in the counts to map every page below `src` once more. -/
def Room (s : PhysMem) (h src : Nat) : Prop :=
  ∀ f, 0 < leafCount pageFormat s.mem h src f →
    s.memoryBitmap f + leafCount pageFormat s.mem h src f < 2 ^ 32

/-- What `clone_page_tables` does with a table of height `k + 1`. -/
def CloneSpec (held : Nat → Nat) (root k : Nat)
    (clone : Nat → PhysMem → Except Panic (Nat × PhysMem)) : Prop :=
  ∀ ⦃d src new : Nat⦄ ⦃p : Nat → Nat⦄ ⦃l : List Word⦄ ⦃s s' : PhysMem⦄
    ⦃rest : List (Nat × Nat)⦄, k + 1 + d = 4 →
    Counted s held ((4, root) :: rest) → InRange p →
    descend pageFormat s.mem p (k + 1) d root = some (l, src) →
    Room s (k + 1) src → clone src s = .ok (new, s') →
      CloneUpTo held root rest p k src new (pageFormat.width (k + 1)) s s'

theorem Counted.leaf_inUse (hc : Counted s held ((4, root) :: rest))
    {f : Nat} (hp : InRange p)
    (hheight : k + d = 4)
    (hd : descend pageFormat s.mem p k d root = some (l, src))
    (hf : 0 < leafCount pageFormat s.mem k src f) :
    s.memoryBitmap f ≠ 0 := by
  have hpos : 0 < forestLeaves pageFormat s.mem ((4, root) :: rest) f := by
    have hle := leafCount_descend_le pageFormat hp hd f
    rw [hheight] at hle
    rw [forestLeaves_cons]
    omega
  rw [hc.exact f (hc.leaf_lt f hpos)]
  omega

theorem descend_word (hd : descend pageFormat m p (k + 1 + 1) d root = some (l, src))
    (hpres : present (m src n) = true) :
    ∃ l', descend pageFormat m (Function.update p (k + 1 + 1) n) (k + 1) (d + 1)
      root = some (l', frameOf (m src n)) := by
  have hn : Function.update p (k + 1 + 1) n (k + 1 + 1) = n :=
    Function.update_self ..
  have hd' : descend pageFormat m (Function.update p (k + 1 + 1) n) (k + 1 + 1) d
      root = some (l, src) := by
    rw [← hd]
    exact descend_path_congr pageFormat fun j hlo _ =>
      Function.update_of_ne (by omega) ..
  have := descend_snoc pageFormat hd' (by rw [hn]; exact hpres)
  rw [hn] at this
  exact ⟨_, this⟩

/-- The copies so far do not change what lies behind a word. -/
theorem CloneUpTo.leafCount_word (h : CloneUpTo held root rest p (k + 1) src new n s s')
    (hc : Counted s held ((4, root) :: rest)) (hp : InRange p)
    (hheight : k + 1 + 1 + d = 4)
    (hd : descend pageFormat s.mem p (k + 1 + 1) d root = some (l, src))
    (hn : n < pageFormat.width (k + 1 + 1))
    (hpres : present (s.mem src n) = true) (f : Nat) :
    leafCount pageFormat s'.mem (k + 1) (frameOf (s.mem src n)) f =
      leafCount pageFormat s.mem (k + 1) (frameOf (s.mem src n)) f := by
  obtain ⟨-, hshape, -⟩ := h.shapeBelow hc hheight hp hd
  obtain ⟨lc, hdc⟩ := descend_word hd hpres
  apply weight_shapeCongr
  intro g hg
  apply hshape g
  have := tableCount_descend_le pageFormat (inRange_update pageFormat hp hn) hdc g
  rw [show k + 1 + (d + 1) = 4 by omega] at this
  omega

theorem CloneUpTo.child_ready (h : CloneUpTo held root rest p (k + 1) src new n s s')
    (hc : Counted s held ((4, root) :: rest)) (hp : InRange p)
    (hheight : k + 1 + 1 + d = 4)
    (hd : descend pageFormat s.mem p (k + 1 + 1) d root = some (l, src))
    (hn : n < pageFormat.width (k + 1 + 1)) (hroom : Room s (k + 1 + 1) src)
    (hpres : present (s.mem src n) = true) :
    Counted s' held ((4, root) :: (k + 1 + 1, new) :: rest) ∧
      (∃ l', descend pageFormat s'.mem (Function.update p (k + 1 + 1) n) (k + 1)
        (d + 1) root = some (l', frameOf (s'.mem src n))) ∧
      Room s' (k + 1) (frameOf (s'.mem src n)) := by
  obtain ⟨huse, -, l', hd'⟩ := h.shapeBelow hc hheight hp hd
  obtain ⟨hpres', htarget⟩ := h.shape src huse n
  have hp' := inRange_update pageFormat hp hn
  have hheight' : k + 1 + (d + 1) = 4 := by omega
  obtain ⟨lc, hdc⟩ := descend_word hd hpres
  refine ⟨h.counted.perm (List.Perm.swap _ _ rest),
    descend_word hd' (hpres'.trans hpres), ?_⟩
  intro f hf
  rw [htarget, h.leafCount_word hc hp hheight hd hn hpres] at hf ⊢
  have hle := leavesBehind_mono s.mem (k + 1) src f (Nat.succ_le_of_lt hn)
  rw [Nat.succ_eq_add_one, leavesBehind_succ_present hpres,
    ← leafCount_eq] at hle
  have := hroom f (by omega)
  rw [h.bitmap f (hc.leaf_inUse hp' hheight' hdc hf)]
  omega

/-- The clone of the table behind word `n`. -/
theorem CloneUpTo.child {child : Nat} {clone : Nat → PhysMem → Except Panic (Nat × PhysMem)}
    (hclone : CloneSpec held root k clone)
    (h : CloneUpTo held root rest p (k + 1) src new n s s')
    (hc : Counted s held ((4, root) :: rest)) (hp : InRange p)
    (hheight : k + 1 + 1 + d = 4)
    (hd : descend pageFormat s.mem p (k + 1 + 1) d root = some (l, src))
    (hn : n < pageFormat.width (k + 1 + 1)) (hroom : Room s (k + 1 + 1) src)
    (hpres : present (s.mem src n) = true)
    (hrec : clone (frameOf (s'.mem src n)) s' = .ok (child, s'')) :
    CloneUpTo held root ((k + 1 + 1, new) :: rest)
      (Function.update p (k + 1 + 1) n) k (frameOf (s'.mem src n)) child
      (pageFormat.width (k + 1)) s' s'' := by
  obtain ⟨hc', ⟨lc', hdc'⟩, hroom'⟩ := h.child_ready hc hp hheight hd hn hroom hpres
  exact hclone (by omega) hc' (inRange_update pageFormat hp hn) hdc' hroom' hrec

/-- Linking the clone from the new table finishes word `n`. -/
theorem CloneUpTo.hang {child : Nat} {s₁ : PhysMem} {e : Word}
    (h : CloneUpTo held root rest p (k + 1) src new n s s')
    (hc : Counted s held ((4, root) :: rest)) (hp : InRange p)
    (hheight : k + 1 + 1 + d = 4)
    (hd : descend pageFormat s.mem p (k + 1 + 1) d root = some (l, src))
    (hn : n < pageFormat.width (k + 1 + 1))
    (hpres : present (s.mem src n) = true)
    (hcl : CloneUpTo held root ((k + 1 + 1, new) :: rest)
      (Function.update p (k + 1 + 1) n) k (frameOf (s'.mem src n)) child
      (pageFormat.width (k + 1)) s' s₁)
    (hlpres : present e = true) (hltarget : frameOf e = child) :
    CloneUpTo held root rest p (k + 1) src new (n + 1) s
      (s₁.writeWord new n e) := by
  obtain ⟨huse, -, l', hd'⟩ := h.shapeBelow hc hheight hp hd
  have hp' := inRange_update pageFormat hp hn
  have hp'n : Function.update p (k + 1 + 1) n (k + 1 + 1) = n :=
    Function.update_self ..
  have htarget : frameOf (s'.mem src n) = frameOf (s.mem src n) :=
    (h.shape src huse n).2
  have hpres' : present (s'.mem src n) = true :=
    (h.shape src huse n).1.trans hpres
  have hbelow := fun q => below_update (p := p) (q := q) (n := n)
    (show k + 1 + 1 ≤ 4 by omega)
  have hused : ∀ f, InUse s f → InUse s' f := by
    intro f hf hlt
    have hne := hf (h.usable ▸ hlt)
    rw [h.bitmap f hne]
    omega
  have hne : ∀ f, InUse s f → f ≠ new := by
    rintro f hf rfl
    exact hf h.fresh.1 h.fresh.2
  have hforest : Counted s₁ held
      ((k + 1, child) :: (k + 1 + 1 + 0, new) :: (4, root) :: rest) :=
    hcl.counted.perm (List.Perm.cons _ (List.Perm.swap _ _ rest))
  have hnewUse : InUse s' new := by
    apply h.counted.table_inUse
    have := tableCount_self_pos pageFormat s'.mem (k + 1) new
    rw [forestTables_cons]
    omega
  have habs : ∀ i, n ≤ i → i < pageFormat.width (k + 1 + 1) →
      present (s₁.mem new i) = false := fun i hi hlt =>
    (hcl.shape new hnewUse i).1.trans (h.todo i hi hlt)
  have habsn := habs n (Nat.le_refl _) hn
  have hlink := hforest.link (l := []) hp' rfl (by rw [hp'n]; exact habsn)
    hlpres hltarget (by rw [hcl.usable]; exact hcl.fresh.1)
  obtain ⟨hview, hother, hrest⟩ := leafWord_link pageFormat (d := 0) (l := [])
    hp' hforest.tables_le_one rfl hlpres hltarget
  have htab := fun f => forestWeight_link pageFormat (d := 0) (l := [])
    (fun x => if x = f then 1 else 0) (fun _ => 0) hp' hforest.tables_le_one
    rfl (by rw [hp'n]; exact habsn) hlpres hltarget
  rw [hp'n] at hlink hview hother hrest htab
  -- the words behind word `n`, seen from the source table
  have hsource : ∀ q, InRange q → q (k + 1 + 1) = n →
      leafWord pageFormat s'.mem q (k + 1) (frameOf (s'.mem src n)) =
        leafWord pageFormat s.mem q (k + 1 + 1) src := by
    intro q hq hqn
    have hg : graft p (k + 1 + 1) q (k + 1 + 1) = n :=
      (graft_of_le (Nat.le_refl _)).trans hqn
    have hkeep := h.notShared (graft p (k + 1 + 1) q) (graft_inRange hp hq _)
      fun hcontra => by omega
    rw [leafWord_graft hheight hd', leafWord_graft hheight hd, leafWord_succ,
      hqn] at hkeep
    rw [← hkeep]
    exact (if_pos hpres').symm
  refine ⟨hlink, hcl.usable.trans h.usable, hcl.zero.trans h.zero, h.fresh,
    ?_, ?_, ?_, ?_, ?_, ?_, ?_, ?_, ?_, ?_⟩
  · intro i hi hlt
    rw [PhysMem.writeWord_mem, write_word_ne _ _ _ _ (by omega)]
    exact habs i (by omega) hlt
  · intro q hq hlt
    by_cases hqn : q (k + 1 + 1) = n
    · refine (hview q hq fun j hlo hhi => ?_).trans ?_
      · obtain rfl : j = k + 1 + 1 := by omega
        rw [hqn, hp'n]
      · rw [hcl.copied q hq (hq _), hsource q hq hqn]
    · refine (hother q hq ⟨k + 1 + 1, by omega, by omega, by rwa [hp'n]⟩).trans ?_
      exact (hcl.elsewhere (k + 1 + 1, new) (by simp) q hq).trans
        (h.copied q hq (by omega))
  · intro q hq hlt
    refine (hother q hq ⟨k + 1 + 1, by omega, by omega, by
      rw [hp'n]
      omega⟩).trans ?_
    exact (hcl.elsewhere (k + 1 + 1, new) (by simp) q hq).trans
      (h.notCopied q hq (by omega))
  · intro q hq hb hlt
    refine (hrest (4, root) (by simp) q hq).trans ?_
    by_cases hqn : q (k + 1 + 1) = n
    · rw [hcl.shared q hq ((hbelow q).mpr ⟨hb, hqn⟩) (hq _),
        h.notShared q hq fun hcontra => by omega]
    · rw [hcl.notShared q hq fun hcontra => hqn ((hbelow q).mp hcontra.1).2]
      exact h.shared q hq hb (by omega)
  · intro q hq hnot
    refine (hrest (4, root) (by simp) q hq).trans ?_
    rw [hcl.notShared q hq fun hcontra => by
      obtain ⟨hb, hqn⟩ := (hbelow q).mp hcontra.1
      exact hnot ⟨hb, by omega⟩]
    exact h.notShared q hq fun hcontra => hnot ⟨hcontra.1, by omega⟩
  · intro x hx q hq
    refine (hrest x (by simp [hx]) q hq).trans ?_
    rw [hcl.elsewhere x (by simp [hx]) q hq, h.elsewhere x hx q hq]
  · intro f hf
    rw [PhysMem.writeWord_memoryBitmap, hcl.bitmap f (by
      rw [h.bitmap f hf]
      omega), h.bitmap f hf, leavesBehind_succ_present hpres, ← leafCount_eq,
      htarget, h.leafCount_word hc hp hheight hd hn hpres, Nat.add_assoc]
  · intro f hf
    rw [← h.tables f hf]
    refine (htab f).trans ?_
    refine (forestWeight_perm pageFormat _ _ _
      (List.Perm.cons _ (List.Perm.swap _ _ rest))).trans ?_
    refine (hcl.tables f (hused f hf)).trans ?_
    exact forestWeight_perm pageFormat _ _ _ (List.Perm.swap _ _ rest)
  · intro f hf i
    rw [PhysMem.writeWord_mem, write_frame_ne _ _ _ (hne f hf),
      (hcl.shape f (hused f hf) i).1, (hcl.shape f (hused f hf) i).2]
    exact h.shape f hf i
  · intro f hf hnot
    have hnot' : forestTables pageFormat s'.mem
        ((4, root) :: (k + 1 + 1, new) :: rest) f = 0 := by
      rw [← hnot, ← h.tables f hf]
      exact forestWeight_perm pageFormat _ _ _ (List.Perm.swap _ _ rest)
    rw [← h.data f hf hnot, ← hcl.data f (hused f hf) hnot']
    funext i
    exact write_frame_ne _ _ _ (hne f hf) i

/-- One word of a table of height `k + 2` copied. -/
theorem CloneUpTo.entryStep {clone : Nat → PhysMem → Except Panic (Nat × PhysMem)}
    (hclone : CloneSpec held root k clone)
    (h : CloneUpTo held root rest p (k + 1) src new n s s')
    (hc : Counted s held ((4, root) :: rest)) (hp : InRange p)
    (hheight : k + 1 + 1 + d = 4)
    (hd : descend pageFormat s.mem p (k + 1 + 1) d root = some (l, src))
    (hn : n < pageFormat.width (k + 1 + 1)) (hroom : Room s (k + 1 + 1) src)
    (hok : cloneEntry clone src new n s' = .ok s'') :
    CloneUpTo held root rest p (k + 1) src new (n + 1) s s'' := by
  obtain ⟨huse, -, -⟩ := h.shapeBelow hc hheight hp hd
  rw [cloneEntry] at hok
  dsimp only at hok
  cases hpres : present (s.mem src n) with
  | false =>
      rw [if_neg (by rw [(h.shape src huse n).1, hpres]; decide)] at hok
      obtain rfl := Except.ok.inj hok
      exact h.skip hheight hd hpres
  | true =>
      have hpres' : present (s'.mem src n) = true :=
        (h.shape src huse n).1.trans hpres
      rw [if_pos hpres', bind_ok] at hok
      obtain ⟨⟨child, s₁⟩, hrec, hok⟩ := hok
      obtain rfl := Except.ok.inj hok
      have hcl := h.child hclone hc hp hheight hd hn hroom hpres hrec
      obtain ⟨hlpres, hltarget⟩ := cloneLink_spec
        (Nat.lt_of_lt_of_le hcl.fresh.1 s'.usable_le) hpres'
      exact h.hang hc hp hheight hd hn hpres hcl hlpres hltarget

theorem CloneUpTo.entryRounds
    {clone : Nat → PhysMem → Except Panic (Nat × PhysMem)} {s₁ : PhysMem}
    (hclone : CloneSpec held root k clone)
    (hstart : CloneUpTo held root rest p (k + 1) src new 0 s s₁)
    (hc : Counted s held ((4, root) :: rest)) (hp : InRange p)
    (hheight : k + 1 + 1 + d = 4)
    (hd : descend pageFormat s.mem p (k + 1 + 1) d root = some (l, src))
    (hroom : Room s (k + 1 + 1) src) :
    ∀ {n : Nat} {s₂ : PhysMem}, n ≤ pageFormat.width (k + 1 + 1) →
      loopRounds (cloneEntry clone src new) n s₁ = .ok s₂ →
        CloneUpTo held root rest p (k + 1) src new n s s₂
  | 0, s₂, _, h => by
      obtain rfl := Except.ok.inj h
      exact hstart
  | n + 1, s₂, hn, h => by
      rw [loopRounds, bind_ok] at h
      obtain ⟨s₀, hbefore, hstep⟩ := h
      exact (entryRounds hclone hstart hc hp hheight hd hroom (Nat.le_of_succ_le hn)
        hbefore).entryStep hclone hc hp hheight hd hn hroom hstep

/-- `clone_page_tables` below the PML4, by induction on the height. -/
theorem cloneTable_spec : ∀ k, k < 3 →
    CloneSpec held root k (cloneTable k)
  | 0, _ => by
      intro d src new p l s s' rest hheight hc hp hd hroom hok
      obtain rfl : d = 3 := by omega
      rw [cloneTable, bind_ok] at hok
      obtain ⟨⟨new, s₁⟩, halloc, hok⟩ := hok
      obtain ⟨rfl, rfl⟩ := Prod.mk.inj (Except.ok.inj hok)
      refine loopPure_induct (P := fun n s' => CloneUpTo held root rest p 0 src new n s s')
        (CloneUpTo.start hc halloc p 0 src) ?_
      intro n hn s' hs
      exact hs.leafStep hc hp hd hn hroom
  | k + 1, hk => by
      intro d src new p l s s' rest hheight hc hp hd hroom hok
      have hwidth : pageFormat.width (k + 1 + 1) = 512 := if_neg (by omega)
      rw [cloneTable, bind_ok] at hok
      obtain ⟨⟨new, s₁⟩, halloc, hok⟩ := hok
      rw [bind_ok] at hok
      obtain ⟨s₂, hrounds, hok⟩ := hok
      obtain ⟨rfl, rfl⟩ := Prod.mk.inj (Except.ok.inj hok)
      rw [← hwidth] at hrounds
      exact (CloneUpTo.start hc halloc p (k + 1) src).entryRounds
        (cloneTable_spec k (by omega)) hc hp hheight hd hroom (Nat.le_refl _) hrounds

theorem CloneUpTo.upperWord {i : Nat} (e : Word)
    (h : CloneUpTo held root rest p 3 src new 256 s s') (hi : 256 ≤ i) :
    CloneUpTo held root rest p 3 src new 256 s (s'.writeWord new i e) := by
  have hwidth : pageFormat.width (3 + 1) ≤ i := hi
  have honce := h.counted.tables_le_one
  have hview := leafWord_write_outside pageFormat e hwidth honce
  have htab := fun f => forestWeight_write_outside pageFormat
    (fun x => if x = f then 1 else 0) (fun _ => 0) e hwidth honce
  have hleaves := fun f => forestWeight_write_outside pageFormat (fun _ => 0)
    (fun x => if x = f then 1 else 0) e hwidth honce
  have hne : ∀ f, InUse s f → f ≠ new := by
    rintro f hf rfl
    exact hf h.fresh.1 h.fresh.2
  have hc' : Counted (s'.writeWord new i e) held
      ((3 + 1, new) :: (4, root) :: rest) := by
    refine ⟨fun f => ?_, fun f hf => ?_, h.counted.held_lt, fun f hf => ?_,
      fun f hf => ?_⟩
    · exact (congrArg (held f + ·) (htab f)).trans_le (h.counted.once f)
    · refine (h.counted.exact f hf).trans ?_
      exact (congrArg₂ (fun a b => held f + a + b) (htab f) (hleaves f)).symm
    · exact h.counted.leaf_lt f (Nat.lt_of_lt_of_eq hf (hleaves f))
    · exact h.counted.table_lt f (Nat.lt_of_lt_of_eq hf (htab f))
  refine ⟨hc', h.usable, h.zero, h.fresh, ?_, ?_, ?_, ?_, ?_, ?_, h.bitmap, ?_,
    ?_, ?_⟩
  · intro j hlo hhi
    have hhi : j < 256 := hhi
    omega
  · intro q hq hlt
    exact (hview (3 + 1, new) (by simp) q hq).trans (h.copied q hq hlt)
  · intro q hq hlt
    exact (hview (3 + 1, new) (by simp) q hq).trans (h.notCopied q hq hlt)
  · intro q hq hb hlt
    exact (hview (4, root) (by simp) q hq).trans (h.shared q hq hb hlt)
  · intro q hq hnot
    exact (hview (4, root) (by simp) q hq).trans (h.notShared q hq hnot)
  · intro x hx q hq
    exact (hview x (by simp [hx]) q hq).trans (h.elsewhere x hx q hq)
  · intro f hf
    exact (htab f).trans (h.tables f hf)
  · intro f hf j
    rw [PhysMem.writeWord_mem, write_frame_ne _ _ _ (hne f hf)]
    exact h.shape f hf j
  · intro f hf hnot
    rw [← h.data f hf hnot]
    funext j
    exact write_frame_ne _ _ _ (hne f hf) j

/-- The state after `clone_page_tables` of `root`. -/
structure Cloned (held : Nat → Nat) (root : Nat) (rest : List (Nat × Nat))
    (new : Nat) (s s' : PhysMem) : Prop where
  counted : Counted s' held ((4, new) :: (4, root) :: rest)
  usable : s'.usablePageCount = s.usablePageCount
  zero : s'.zeroPage = s.zeroPage
  fresh : new < s.usablePageCount ∧ s.memoryBitmap new = 0
  copied : ∀ a < lowerHalf, pte s' new a = (pte s root a).map shareWord
  shared : ∀ a < lowerHalf, pte s' root a = (pte s root a).map shareWord
  elsewhere : ∀ x ∈ rest, ∀ q, InRange q →
    leafWord pageFormat s'.mem q x.1 x.2 = leafWord pageFormat s.mem q x.1 x.2
  bitmap : ∀ f, s.memoryBitmap f ≠ 0 →
    s'.memoryBitmap f = s.memoryBitmap f + leafCount pageFormat s.mem 4 root f
  tables : ∀ f, InUse s f →
    forestTables pageFormat s'.mem ((4, new) :: (4, root) :: rest) f =
      forestTables pageFormat s.mem ((4, root) :: rest) f
  data : ∀ f, InUse s f →
    forestTables pageFormat s.mem ((4, root) :: rest) f = 0 →
      s'.mem f = s.mem f

/-- A round of `clone_page_tables`. -/
def cloneRound (root new i : Nat) (s : PhysMem) : Except Panic PhysMem :=
  if 256 ≤ i then .ok (s.writeWord new i (s.mem root i))
  else cloneEntry (cloneTable 2) root new i s

/-- The lower half is cloned word by word, then the upper half is copied. -/
theorem CloneUpTo.rootRounds {s₁ : PhysMem}
    (hstart : CloneUpTo held root rest (vpath 0) 3 root new 0 s s₁)
    (hc : Counted s held ((4, root) :: rest)) (hroom : Room s 4 root) :
    ∀ {n : Nat} {s₂ : PhysMem}, loopRounds (cloneRound root new) n s₁ = .ok s₂ →
      CloneUpTo held root rest (vpath 0) 3 root new (min n 256) s s₂
  | 0, s₂, h => by
      obtain rfl := Except.ok.inj h
      exact hstart
  | n + 1, s₂, h => by
      rw [loopRounds, bind_ok] at h
      obtain ⟨s₀, hbefore, hstep⟩ := h
      have hprev := rootRounds hstart hc hroom hbefore
      rw [cloneRound] at hstep
      split at hstep
      · rename_i hi
        obtain rfl := Except.ok.inj hstep
        rw [show min n 256 = 256 by omega] at hprev
        rw [show min (n + 1) 256 = 256 by omega]
        exact hprev.upperWord _ hi
      · rename_i hi
        rw [show min n 256 = n by omega] at hprev
        rw [show min (n + 1) 256 = n + 1 by omega]
        exact hprev.entryStep (d := 0) (l := []) (cloneTable_spec 2 (by decide)) hc
          (vpath_inRange (by decide)) rfl rfl (by
            change n < 256
            omega) hroom hstep

theorem clonePageTables_upTo
    (hc : Counted s held ((4, root) :: rest)) (hroom : Room s 4 root)
    (hok : clonePageTables s root = .ok (new, s')) :
    CloneUpTo held root rest (vpath 0) 3 root new 256 s s' := by
  rw [clonePageTables, bind_ok] at hok
  obtain ⟨⟨new, s₁⟩, halloc, hok⟩ := hok
  rw [bind_ok] at hok
  obtain ⟨s₂, hrounds, hok⟩ := hok
  obtain ⟨rfl, rfl⟩ := Prod.mk.inj (Except.ok.inj hok)
  exact (CloneUpTo.start hc halloc _ 3 root).rootRounds hc hroom (n := 512) hrounds

theorem clonePageTables_spec
    (hc : Counted s held ((4, root) :: rest)) (hroom : Room s 4 root)
    (hok : clonePageTables s root = .ok (new, s')) :
    Cloned held root rest new s s' := by
  have h := clonePageTables_upTo hc hroom hok
  have hall : ∀ q, Below (vpath 0) 4 q := fun q j hlo hhi => by omega
  refine ⟨h.counted, h.usable, h.zero, h.fresh, ?_, ?_, h.elsewhere, ?_,
    h.tables, h.data⟩
  · intro a ha
    exact h.copied _ (vpath_inRange ha) (vpath_inRange ha 4)
  · intro a ha
    exact h.shared _ (vpath_inRange ha) (hall _) (vpath_inRange ha 4)
  · intro f hf
    rw [h.bitmap f hf, leafCount_eq]
    rfl

end GlitchedOS
