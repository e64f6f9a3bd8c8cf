/-
Fork and exit.  A child that resolves faults and stores to its pages writes no table of
another address space, and keeps the counts exact; so when its tables are freed, exactly
the references that the clone added are gone.
-/
import GlitchedOS.Paging.CopyOnWrite
import GlitchedOS.Paging.Bytes

namespace GlitchedOS

open Radix

/-- What a child does between its clone and its end. -/
inductive ChildOp where
  | cowHandler (addr : Nat)
  | store (addr : Nat) (update : Word → Word)

/-- One operation of the child with the page table `root`. -/
inductive ChildStep (root : Nat) : PhysMem → ChildOp → PhysMem → Prop
  | cowHandler {s s' : PhysMem} {addr : Nat} {resolved : Bool} (hfit : addr < lowerHalf)
      (hok : GlitchedOS.cowHandler s root addr = .ok (resolved, s')) :
      ChildStep root s (.cowHandler addr) s'
  | store {s s' : PhysMem} {addr : Nat} {update : Word → Word} (hfit : addr < lowerHalf)
      (hok : userStore s root addr update = .ok s') :
      ChildStep root s (.store addr update) s'

/-- The state `s'` of a child reached from `s`: its counts are exact, each page it may
write is its own, and the tables of the other trees are as they were. -/
structure ChildState (held : Nat → Nat) (root : Nat) (trees : List (Nat × Nat))
    (s s' : PhysMem) : Prop where
  counted : Counted s' held ((4, root) :: trees)
  usable : s'.usablePageCount = s.usablePageCount
  alone : ∀ a < lowerHalf, ∀ e, pte s' root a = some e → hasFlag e flagsRw = true →
    s'.memoryBitmap (frameOf e) = 1
  tables : ∀ f, 0 < forestTables pageFormat s.mem trees f → s'.mem f = s.mem f

variable {s s' s'' : PhysMem} {held : Nat → Nat} {trees : List (Nat × Nat)}
  {root addr : Nat} {e : Word} {resolved : Bool}

/-! ### `cow_handler` -/

theorem Counted.pt_not_table {pdpt pd pt : Nat} (hc : Counted s held ((4, root) :: trees))
    (haddr : addr < lowerHalf) (hw : Walked s.mem root addr pdpt pd pt) :
    forestTables pageFormat s.mem trees pt = 0 := by
  obtain ⟨l, hd⟩ := hw.pt
  have hpos : 0 < tableCount pageFormat s.mem 4 root pt :=
    Nat.lt_of_lt_of_le (tableCount_self_pos pageFormat s.mem 0 pt)
      (tableCount_descend_le pageFormat (vpath_inRange haddr) hd pt)
  have hone := hc.tables_le_one pt
  rw [forestTables_cons] at hone
  omega

/-- The fault handler writes one table, and one frame that was free. -/
theorem cowHandler_tables (hc : Counted s held ((4, root) :: trees))
    (haddr : addr < lowerHalf) (hok : cowHandler s root addr = .ok (resolved, s')) {f : Nat}
    (hf : 0 < forestTables pageFormat s.mem trees f) : s'.mem f = s.mem f := by
  cases hpte : pte s root addr with
  | none =>
      rw [cowHandler_unmapped hpte] at hok
      rw [← (Prod.mk.inj (Except.ok.inj hok)).2]
  | some e =>
      obtain ⟨pdpt, pd, pt, hw, hpres, rfl⟩ := walked_of_pte hpte
      have hpt := hc.pt_not_table haddr hw
      have hne : f ≠ pt := by
        rintro rfl
        omega
      rw [cowHandler_mapped hw hpres, resolveCow] at hok
      dsimp only at hok
      split at hok
      · split at hok
        · rw [bind_ok] at hok
          obtain ⟨⟨new, s₁⟩, hget, hok⟩ := hok
          obtain ⟨hlt, hfree, rfl⟩ := getAvailableAddress_ok hget
          obtain ⟨-, rfl⟩ := Prod.mk.inj (Except.ok.inj hok)
          obtain ⟨-, hnotable, -⟩ := hc.fresh hlt hfree
          rw [forestTables_cons] at hnotable
          have hnew : f ≠ new := by
            rintro rfl
            omega
          funext i
          rw [PhysMem.writeWord_mem, write_frame_ne _ _ _ hne]
          simp only [PhysMem.copyFrame, PhysMem.setCount, if_neg hnew]
        · obtain ⟨-, rfl⟩ := Prod.mk.inj (Except.ok.inj hok)
          funext i
          rw [orWord, PhysMem.writeWord_mem, write_frame_ne _ _ _ hne, PhysMem.writeWord_mem,
            write_frame_ne _ _ _ hne]
      · rw [← (Prod.mk.inj (Except.ok.inj hok)).2]

namespace ChildState

variable {base : PhysMem}

theorem forestTables_eq (h : ChildState held root trees base s) (f : Nat) :
    forestTables pageFormat s.mem trees f = forestTables pageFormat base.mem trees f :=
  forestWeight_congr pageFormat _ _ fun g hg i => congrFun (h.tables g hg) i

theorem cow (h : ChildState held root trees base s) (haddr : addr < lowerHalf)
    (hok : cowHandler s root addr = .ok (resolved, s')) :
    ChildState held root trees base s' := by
  have htables : ∀ f, 0 < forestTables pageFormat base.mem trees f → s'.mem f = base.mem f := by
    intro f hf
    rw [cowHandler_tables h.counted haddr hok (by rw [h.forestTables_eq]; exact hf),
      h.tables f hf]
  cases hpte : pte s root addr with
  | none =>
      rw [cowHandler_unmapped hpte] at hok
      rwa [← (Prod.mk.inj (Except.ok.inj hok)).2]
  | some e =>
      cases hcow : hasFlag e flagsCow with
      | false =>
          rw [cowHandler_notCow hpte hcow] at hok
          rwa [← (Prod.mk.inj (Except.ok.inj hok)).2]
      | true =>
          obtain ⟨-, hc', e', hres⟩ := cowHandler_spec h.counted haddr hpte hcow hok
          refine ⟨hc', hres.usable.trans h.usable, fun a ha d hd hrw => ?_, htables⟩
          by_cases hpage : a / pageSize = addr / pageSize
          · obtain ⟨links, hself⟩ := hres.self
            have hd' := (hself a ha hpage).2
            rw [pte_entries, hd', Option.bind_some, List.getLast?_concat] at hd
            rw [← Option.some.inj hd]
            exact hres.alone
          · rw [pte_entries, hres.other a ha hpage, ← pte_entries] at hd
            have hone := h.alone a ha d hd hrw
            rw [hres.bitmap _ (by omega), hone]
            intro hframe
            exact hpage (h.counted.unique_page ha hd hone haddr hpte hframe.symm).symm

theorem storeAt (h : ChildState held root trees base s) (haddr : addr < lowerHalf)
    (hpte : pte s root addr = some e) (hrw : hasFlag e flagsRw = true)
    (update : Word → Word) :
    ChildState held root trees base (storeAt s e addr update) := by
  have hnotable := h.counted.not_table_of_alone haddr hpte (h.alone addr haddr e hpte hrw)
  have hframe : ∀ f, 0 < forestTables pageFormat s.mem ((4, root) :: trees) f →
      (GlitchedOS.storeAt s e addr update).mem f = s.mem f := by
    intro f hf
    funext i
    refine write_frame_ne _ _ _ ?_ i
    rintro rfl
    omega
  have hpteEq : ∀ a < lowerHalf, pte (GlitchedOS.storeAt s e addr update) root a =
      pte s root a := by
    intro a ha
    refine leafWord_congr pageFormat (vpath_inRange ha) fun f hf => ?_
    rw [hframe f (by rw [forestTables_cons]; omega)]
    exact fun _ => rfl
  refine ⟨h.counted.memCongr (fun f hf i => congrFun (hframe f hf) i) rfl rfl, h.usable, ?_, ?_⟩
  · intro a ha d hd
    rw [hpteEq a ha] at hd
    exact h.alone a ha d hd
  · intro f hf
    rw [← h.tables f hf]
    apply hframe
    rw [forestTables_cons, h.forestTables_eq]
    omega

end ChildState

/-- One operation of a child. -/
theorem ChildStep.childState {base : PhysMem} {op : ChildOp} (hstep : ChildStep root s op s')
    (h : ChildState held root trees base s) : ChildState held root trees base s' := by
  cases hstep with
  | cowHandler hfit hok => exact h.cow hfit hok
  | @store _ addr update hfit hok =>
      rw [userStore] at hok
      split at hok
      · obtain rfl := Except.ok.inj hok
        exact h
      next e hpte =>
        split at hok
        next hrw =>
          obtain rfl := Except.ok.inj hok
          exact h.storeAt hfit hpte hrw update
        next =>
          rw [bind_ok] at hok
          obtain ⟨⟨resolved, s₁⟩, hcow, hok⟩ := hok
          have h₁ := h.cow hfit hcow
          dsimp only at hok
          split at hok
          · split at hok
            · obtain rfl := Except.ok.inj hok
              exact h₁
            next e' hpte' =>
              split at hok
              next hrw =>
                obtain rfl := Except.ok.inj hok
                exact h₁.storeAt hfit hpte' hrw update
              next =>
                obtain rfl := Except.ok.inj hok
                exact h₁
          · obtain rfl := Except.ok.inj hok
            exact h₁

/-! ### Clone and teardown -/

/-- The clone as the child starts. -/
theorem clone_childState {new : Nat} (hc : Counted s held ((4, root) :: trees))
    (hroom : Room s 4 root) (hclone : clonePageTables s root = .ok (new, s')) :
    ChildState held new ((4, root) :: trees) s' s' := by
  have hcl := clonePageTables_spec hc hroom hclone
  refine ⟨hcl.counted, rfl, fun a ha e hpte hrw => ?_, fun _ _ => rfl⟩
  rw [hcl.copied a ha, Option.map_eq_some_iff] at hpte
  obtain ⟨e₀, -, rfl⟩ := hpte
  rw [shareWord_rw] at hrw
  cases hrw

/-- The forest of the parent weighs after the clone what it weighed before. -/
theorem clone_forestWeight {new : Nat} (hc : Counted s held ((4, root) :: trees))
    (hroom : Room s 4 root) (hclone : clonePageTables s root = .ok (new, s'))
    (α β : Nat → Nat) :
    forestWeight pageFormat s'.mem α β ((4, root) :: trees) =
      forestWeight pageFormat s.mem α β ((4, root) :: trees) :=
  forestWeight_shapeCongr pageFormat α β fun f hf =>
    (clonePageTables_upTo hc hroom hclone).shape f (hc.table_inUse hf)

/-- A clone that is torn down, after whatever faults and stores of the child, leaves every
frame count as it was before the clone, and the parent with its translations; no count
of a frame that the parent maps may pass the largest `uint32_t`. -/
theorem fork_exit_restores {new : Nat} {ops : List ChildOp}
    (hc : Counted s held ((4, root) :: trees)) (hroom : Room s 4 root)
    (hclone : clonePageTables s root = .ok (new, s'))
    (hrun : Run (ChildStep new) s' ops s'') :
    (∀ f < s.usablePageCount,
      (freePageTables s'' new).memoryBitmap f = s.memoryBitmap f) ∧
      ∀ a < lowerHalf, translate (freePageTables s'' new) root a = translate s root a := by
  have hcl := clonePageTables_spec hc hroom hclone
  have h : ChildState held new ((4, root) :: trees) s' s'' :=
    hrun.invariant (ChildState held new ((4, root) :: trees) s')
      (fun _ _ _ hstep hst => hstep.childState hst) (clone_childState hc hroom hclone)
  obtain ⟨hfreed, hsame, -⟩ := freePageTables_spec h.counted
  have husable : (freePageTables s'' new).usablePageCount = s.usablePageCount :=
    (hsame.usable.trans h.usable).trans hcl.usable
  have hforest : ∀ α β, forestWeight pageFormat (freePageTables s'' new).mem α β
      ((4, root) :: trees) = forestWeight pageFormat s.mem α β ((4, root) :: trees) := by
    intro α β
    rw [hsame.mem, ← clone_forestWeight hc hroom hclone α β]
    exact forestWeight_congr pageFormat α β fun f hf i => congrFun (h.tables f hf) i
  refine ⟨fun f hf => ?_, fun a ha => ?_⟩
  · have hexact := hfreed.exact f (husable ▸ hf)
    rw [forestTables, forestLeaves, hforest, hforest] at hexact
    exact hexact.trans (hc.exact f hf).symm
  · have hpte : pte (freePageTables s'' new) root a = (pte s root a).map shareWord := by
      rw [← hcl.shared a ha, pte, hsame.mem]
      refine leafWord_congr pageFormat (vpath_inRange ha) fun f hf i => ?_
      refine congrFun (h.tables f ?_) i
      rw [forestTables_cons]
      omega
    rw [translate, translate, hpte, Option.map_map]
    congr 2
    exact funext frameOf_shareWord

/-! ### An address space of one page -/

/-- Only word `0` of a table is present. -/
structure OneWord (s : PhysMem) (src : Nat) : Prop where
  used : s.memoryBitmap src ≠ 0
  present : present (s.mem src 0) = true
  absent : ∀ i, i ≠ 0 → GlitchedOS.present (s.mem src i) = false

/-- Tables of one word each lead down to a page in the frame `z`. -/
def OnePath (s : PhysMem) (z : Nat) : Nat → Nat → Prop
  | 0, src => OneWord s src ∧ frameOf (s.mem src 0) = z
  | level + 1, src => OneWord s src ∧ OnePath s z level (frameOf (s.mem src 0))

theorem OnePath.keep {z : Nat} (hkeep : ∀ f, s.memoryBitmap f ≠ 0 →
    s'.memoryBitmap f ≠ 0 ∧ s'.mem f = s.mem f) {level src : Nat}
    (h : OnePath s z level src) : OnePath s' z level src := by
  have hword : ∀ src, OneWord s src → OneWord s' src ∧ s'.mem src = s.mem src := by
    intro src hsrc
    obtain ⟨hused, hmem⟩ := hkeep src hsrc.used
    exact ⟨⟨hused, hmem ▸ hsrc.present, hmem ▸ hsrc.absent⟩, hmem⟩
  induction level generalizing src with
  | zero =>
      obtain ⟨hone, hmem⟩ := hword src h.1
      exact ⟨hone, hmem ▸ h.2⟩
  | succ level ih =>
      obtain ⟨hone, hmem⟩ := hword src h.1
      exact ⟨hone, hmem ▸ ih h.2⟩

/-- The pages below a table of one word are those behind the word. -/
theorem OneWord.leafCount {src : Nat} (h : OneWord s src) (level f : Nat) :
    leafCount pageFormat s.mem (level + 1) src f =
      leafCount pageFormat s.mem level (frameOf (s.mem src 0)) f := by
  have hfirst : 0 ∈ Finset.range (pageFormat.width (level + 1)) := by
    rw [Finset.mem_range]
    change 0 < if level + 1 = 4 then 256 else 512
    split <;> decide
  rw [Radix.leafCount, weight_succ, Nat.zero_add, Finset.sum_eq_single_of_mem 0 hfirst]
  · rw [entryWeight, show pageFormat.present (s.mem src 0) = true from h.present, if_pos rfl]
    rfl
  · intro i _ hi
    rw [entryWeight, show pageFormat.present (s.mem src i) = false from h.absent i hi]
    rfl

theorem OnePath.leafCount {z level src : Nat} (h : OnePath s z level src) (f : Nat) :
    leafCount pageFormat s.mem (level + 1) src f = if z = f then 1 else 0 := by
  induction level generalizing src with
  | zero =>
      rw [h.1.leafCount, h.2]
      rfl
  | succ level ih => rw [h.1.leafCount, ih h.2]

theorem Roomy.incCount {k z : Nat} (h : Roomy s k) (hz : z ≠ 0)
    (hused : s.memoryBitmap z ≠ 0) : Roomy (s.incCount z) k := by
  refine ⟨h.hint, fun f hf hlt => ?_, ?_⟩
  · have hne : f ≠ z := by
      rintro rfl
      exact hused (h.free _ hf hlt)
    exact (if_neg hne).trans (h.free f hf hlt)
  · change (if 0 = z then _ else s.memoryBitmap 0) ≠ 0
    rw [if_neg (Ne.symm hz)]
    exact h.low

theorem allocatePhysicalPage_keep {f : Nat} (h : allocatePhysicalPage s = .ok (f, s')) {g : Nat}
    (hg : s.memoryBitmap g ≠ 0) :
    g ≠ f ∧ s'.memoryBitmap g = s.memoryBitmap g ∧ s'.mem g = s.mem g := by
  obtain ⟨-, hfree, rfl⟩ := allocatePhysicalPage_ok h
  have hne : g ≠ f := by
    rintro rfl
    exact hg hfree
  exact ⟨hne, if_neg hne, if_neg hne⟩

theorem oneWord_fresh {f : Nat} {e : Word} (h : allocatePhysicalPage s = .ok (f, s'))
    (hpres : present e = true) : OneWord (s'.writeWord f 0 e) f := by
  obtain ⟨-, hfree, rfl⟩ := allocatePhysicalPage_ok h
  refine ⟨?_, ?_, fun i hi => ?_⟩
  · change (if f = f then (s.memoryBitmap f + 1) % 2 ^ 32 else _) ≠ 0
    rw [if_pos rfl, hfree]
    decide
  · rw [PhysMem.writeWord_mem, write_same]
    exact hpres
  · rw [PhysMem.writeWord_mem, write_word_ne _ _ _ _ hi]
    change present ((if f = f then fun _ => 0#64 else _) i) = false
    rw [if_pos rfl]
    exact present_zero

/-- An address space, or a part of one, with one page more of the frame `z`. -/
structure PageAdded (held : Nat → Nat) (trees : List (Nat × Nat)) (z k level : Nat)
    (src : Nat) (s s' : PhysMem) : Prop where
  counted : Counted s' held ((level + 1, src) :: trees)
  path : OnePath s' z level src
  root_lt : src < s.usablePageCount
  roomy : Roomy s' (k + level + 1)
  usable : s'.usablePageCount = s.usablePageCount
  count : s'.memoryBitmap z = s.memoryBitmap z + 1

theorem pageAdded_exists {z k : Nat} (flags : Flags) (hc : Counted s held trees)
    (hheld : held z = 1) (hz : z ≠ 0) (hfits : s.memoryBitmap z + 1 < 2 ^ 32)
    (hroomy : Roomy s k) (level : Nat) (hframes : k + level < s.usablePageCount) :
    ∃ src s', PageAdded held trees z k level src s s' := by
  have hlt := hc.held_lt z (by omega)
  have hused : s.memoryBitmap z ≠ 0 := by
    rw [hc.exact z hlt]
    omega
  have hp : InRange fun _ => 0 := by
    intro j
    change 0 < if j = 4 then 256 else 512
    split <;> decide
  induction level with
  | zero =>
      obtain ⟨src, s₁, halloc, -, hroomy₁, husable₁⟩ :=
        allocatePhysicalPage_progress hroomy hframes
      obtain ⟨-, hcount₁, -⟩ := allocatePhysicalPage_keep halloc hused
      obtain ⟨-, hempty, -⟩ := hc.grows_allocatePhysicalPage halloc
      obtain ⟨hpres, htarget, -⟩ := zeroWord_spec (Nat.lt_of_lt_of_le hlt s.usable_le) flags
      set e := zeroWord z flags
      have hadd := (s₁.writeWord src 0 e).incCount_memoryBitmap (f := z)
        (by rw [PhysMem.writeWord_memoryBitmap, hcount₁]; exact hfits)
      refine ⟨src, (s₁.writeWord src 0 e).incCount z, ?_, ?_, ?_, ?_, husable₁, ?_⟩
      · refine (hc.allocatePhysicalPage halloc 0).setLeaf (d := 0) (l := []) hp rfl e rfl rfl
          (fun f _ => ?_) fun _ => ?_
        · rw [hadd, hempty, present_zero, if_neg Bool.false_ne_true, hpres, if_pos rfl, htarget]
          rfl
        · rw [htarget, husable₁]
          exact hlt
      · have hpath : OnePath (s₁.writeWord src 0 e) z 0 src := by
          refine ⟨oneWord_fresh halloc hpres, ?_⟩
          rw [PhysMem.writeWord_mem, write_same]
          exact htarget
        have hkeep : ∀ f, (s₁.writeWord src 0 e).memoryBitmap f ≠ 0 →
            ((s₁.writeWord src 0 e).incCount z).memoryBitmap f ≠ 0 ∧
              ((s₁.writeWord src 0 e).incCount z).mem f = (s₁.writeWord src 0 e).mem f := by
          intro f hf
          rw [hadd]
          exact ⟨by omega, rfl⟩
        exact hpath.keep hkeep
      · exact (allocatePhysicalPage_ok halloc).1
      · refine (hroomy₁.writeWord src 0 e).incCount hz ?_
        rw [PhysMem.writeWord_memoryBitmap, hcount₁]
        exact hused
      · rw [hadd, if_pos rfl, PhysMem.writeWord_memoryBitmap, hcount₁]
  | succ level ih =>
      obtain ⟨src, s₀, h⟩ := ih (by omega)
      obtain ⟨new, s₁, halloc, -, hroomy₁, husable₁⟩ :=
        allocatePhysicalPage_progress h.roomy (by rw [h.usable]; omega)
      obtain ⟨-, hempty, -⟩ := h.counted.grows_allocatePhysicalPage halloc
      obtain ⟨hpres, htarget⟩ := link_word (Nat.lt_of_lt_of_le h.root_lt s.usable_le)
      set e := (frameAddress src &&& pageMask) ||| higherLevelFlags
      have hkeep : ∀ f, s₀.memoryBitmap f ≠ 0 →
          (s₁.writeWord new 0 e).memoryBitmap f = s₀.memoryBitmap f ∧
            (s₁.writeWord new 0 e).mem f = s₀.mem f := by
        intro f hf
        obtain ⟨hne, hcount, hmem⟩ := allocatePhysicalPage_keep halloc hf
        exact ⟨hcount, (funext (write_frame_ne _ _ _ hne)).trans hmem⟩
      refine ⟨new, s₁.writeWord new 0 e, ?_, ?_, ?_, ?_, husable₁.trans h.usable, ?_⟩
      · have hc₁ := (h.counted.allocatePhysicalPage halloc (level + 1)).perm (.swap _ _ _)
        refine hc₁.link (d := 0) (l := []) hp rfl ?_ hpres htarget ?_
        · rw [hempty]
          exact present_zero
        · rw [husable₁, h.usable]
          exact h.root_lt
      · refine ⟨oneWord_fresh halloc hpres, ?_⟩
        rw [PhysMem.writeWord_mem, write_same, htarget]
        refine h.path.keep fun f hf => ⟨?_, (hkeep f hf).2⟩
        rw [(hkeep f hf).1]
        exact hf
      · rw [← h.usable]
        exact (allocatePhysicalPage_ok halloc).1
      · exact hroomy₁.writeWord new 0 e
      · rw [(hkeep z (by rw [h.count]; omega)).1, h.count]

/-- Rounds after the first that keep what the first has reached. -/
theorem loopRounds_first {S : Type} {body : Nat → S → Except Panic S} {Q : S → Prop} {st : S}
    (hfirst : ∃ st', body 0 st = .ok st' ∧ Q st')
    (hkeep : ∀ i st, i ≠ 0 → Q st → ∃ st', body i st = .ok st' ∧ Q st') {n : Nat}
    (hn : 1 ≤ n) : ∃ st', loopRounds body n st = .ok st' ∧ Q st' := by
  induction n, hn using Nat.le_induction with
  | base => exact hfirst
  | succ n hn ih =>
      obtain ⟨st₁, hrounds, hst₁⟩ := ih
      obtain ⟨st₂, hround, hst₂⟩ := hkeep n st₁ (by omega) hst₁
      refine ⟨st₂, ?_, hst₂⟩
      rw [loopRounds, hrounds]
      exact hround

/-- What copying one path does: one reference more to the page. -/
structure PathShared (z k : Nat) (s s' : PhysMem) : Prop where
  roomy : Roomy s' k
  usable : s'.usablePageCount = s.usablePageCount
  count : s'.memoryBitmap z = (s.memoryBitmap z + 1) % 2 ^ 32
  present : ∀ f, s.memoryBitmap f ≠ 0 → ∀ i, present (s'.mem f i) = present (s.mem f i)

theorem PathShared.writeWord {z k new : Nat} (h : PathShared z k s s')
    (hfree : s.memoryBitmap new = 0) (i : Nat) (e : Word) :
    PathShared z k s (s'.writeWord new i e) := by
  refine ⟨h.roomy.writeWord new i e, h.usable, h.count, fun f hf j => ?_⟩
  have hne : f ≠ new := by
    rintro rfl
    exact hf hfree
  rw [PhysMem.writeWord_mem, write_frame_ne _ _ _ hne]
  exact h.present f hf j

/-- Copying the one word of a table that links a table, or leads to a page, further down. -/
theorem PathShared.entry {z k level src new : Nat} {s₁ : PhysMem}
    (halloc : allocatePhysicalPage s = .ok (new, s₁)) (hsrc : OneWord s src)
    (hz : s.memoryBitmap z ≠ 0)
    (hclone : ∃ c s₂, cloneTable level (frameOf (s.mem src 0)) s₁ = .ok (c, s₂) ∧
      PathShared z k s₁ s₂) :
    ∃ s', cloneEntry (cloneTable level) src new 0 s₁ = .ok s' ∧ PathShared z k s s' := by
  obtain ⟨-, hfree, -⟩ := allocatePhysicalPage_ok halloc
  obtain ⟨c, s₂, hclone, h⟩ := hclone
  obtain ⟨-, -, hmem⟩ := allocatePhysicalPage_keep halloc hsrc.used
  have h' : PathShared z k s s₂ := by
    refine ⟨h.roomy, ?_, ?_, fun f hf i => ?_⟩
    · rw [h.usable, (allocatePhysicalPage_ok halloc).2.2]
      rfl
    · rw [h.count, (allocatePhysicalPage_keep halloc hz).2.1]
    · obtain ⟨-, hcount, hframe⟩ := allocatePhysicalPage_keep halloc hf
      rw [h.present f (by rw [hcount]; exact hf), hframe]
  refine ⟨s₂.writeWord new 0
    ((frameAddress c &&& pageMask) ||| (s.mem src 0 &&& higherLevelFlags)), ?_,
    h'.writeWord hfree 0 _⟩
  simp only [cloneEntry, hmem, hsrc.present, if_pos, hclone]
  rfl

theorem PathShared.entry_absent {z k src new i : Nat}
    {clone : Nat → PhysMem → Except Panic (Nat × PhysMem)} (h : PathShared z k s s')
    (hsrc : OneWord s src) (hi : i ≠ 0) : cloneEntry clone src new i s' = .ok s' := by
  have habs : GlitchedOS.present (s'.mem src i) = false :=
    (h.present src hsrc.used i).trans (hsrc.absent i hi)
  simp only [cloneEntry, habs]
  rfl

theorem OnePath.cloneTable {z k level src : Nat} (h : OnePath s z level src) (hz : z ≠ 0)
    (hused : s.memoryBitmap z ≠ 0) (hroomy : Roomy s k)
    (hframes : k + level < s.usablePageCount) :
    ∃ new s', cloneTable level src s = .ok (new, s') ∧ PathShared z (k + level + 1) s s' := by
  induction level generalizing s src k with
  | zero =>
      obtain ⟨new, s₁, halloc, -, hroomy₁, husable₁⟩ :=
        allocatePhysicalPage_progress hroomy hframes
      obtain ⟨hone, htarget⟩ := h
      obtain ⟨hne, -, hmem⟩ := allocatePhysicalPage_keep halloc hone.used
      obtain ⟨-, hcount, -⟩ := allocatePhysicalPage_keep halloc hused
      set e := shareWord (s.mem src 0) with he
      have hleaf : cloneLeaf src new 0 s₁ =
          ((s₁.writeWord src 0 e).incCount z).writeWord new 0 e := by
        rw [he, ← htarget, ← hmem]
        exact cloneLeaf_present (by rw [hmem]; exact hone.present)
      have hmem' : (cloneLeaf src new 0 s₁).mem = write (write s₁.mem src 0 e) new 0 e := by
        rw [hleaf]
        rfl
      have hloop : ∀ n, loopPure (cloneLeaf src new) (n + 1) s₁ = cloneLeaf src new 0 s₁ := by
        intro n
        induction n with
        | zero => rfl
        | succ n ih =>
            rw [loopPure, ih]
            apply cloneLeaf_absent
            rw [hmem', write_frame_ne _ _ _ hne, write_word_ne _ _ _ _ (Nat.succ_ne_zero n), hmem]
            exact hone.absent _ (Nat.succ_ne_zero n)
      refine ⟨new, cloneLeaf src new 0 s₁, ?_, ?_, ?_, ?_, fun f hf i => ?_⟩
      · rw [GlitchedOS.cloneTable, halloc]
        exact congrArg (fun st => Except.ok (new, st)) (hloop 511)
      · rw [hleaf]
        refine ((hroomy₁.writeWord _ _ _).incCount hz ?_).writeWord _ _ _
        exact hcount ▸ hused
      · rw [hleaf]
        exact husable₁
      · rw [hleaf]
        change (if z = z then (s₁.memoryBitmap z + 1) % 2 ^ 32 else _) = _
        rw [if_pos rfl, hcount]
      · obtain ⟨hfne, -, hframe⟩ := allocatePhysicalPage_keep halloc hf
        rw [hmem', write_frame_ne _ _ _ hfne]
        by_cases hword : f = src ∧ i = 0
        · obtain ⟨rfl, rfl⟩ := hword
          rw [write_same]
          exact present_shareWord _
        · rw [write, if_neg hword, hframe]
  | succ level ih =>
      obtain ⟨new, s₁, halloc, -, hroomy₁, husable₁⟩ :=
        allocatePhysicalPage_progress hroomy (by omega)
      obtain ⟨hone, hbelow⟩ := h
      obtain ⟨-, hcount, -⟩ := allocatePhysicalPage_keep halloc hused
      have hpath : OnePath s₁ z level (frameOf (s.mem src 0)) := by
        refine hbelow.keep fun f hf => ?_
        obtain ⟨-, hcount, hframe⟩ := allocatePhysicalPage_keep halloc hf
        exact ⟨hcount ▸ hf, hframe⟩
      have hfirst := PathShared.entry halloc hone hused
        (ih hpath (hcount ▸ hused) hroomy₁ (by omega))
      obtain ⟨s', hrounds, hshared⟩ := loopRounds_first hfirst
        (fun i st hi hst => ⟨st, hst.entry_absent hone hi, hst⟩) (by decide : 1 ≤ 512)
      refine ⟨new, s', ?_, ?_⟩
      · rw [GlitchedOS.cloneTable, bind_ok]
        refine ⟨(new, s₁), halloc, ?_⟩
        rw [bind_ok]
        exact ⟨s', hrounds, rfl⟩
      · rwa [show k + (level + 1) + 1 = k + 1 + level + 1 by omega]

/-- So is an address space of one path. -/
theorem OnePath.clonePageTables {z k root : Nat} (h : OnePath s z 3 root) (hz : z ≠ 0)
    (hused : s.memoryBitmap z ≠ 0) (hroomy : Roomy s k) (hframes : k + 3 < s.usablePageCount) :
    ∃ new s', clonePageTables s root = .ok (new, s') ∧ PathShared z (k + 4) s s' := by
  obtain ⟨new, s₁, halloc, -, hroomy₁, husable₁⟩ :=
    allocatePhysicalPage_progress hroomy (by omega)
  obtain ⟨-, hfree, -⟩ := allocatePhysicalPage_ok halloc
  obtain ⟨hone, hbelow⟩ := h
  obtain ⟨-, hcount, -⟩ := allocatePhysicalPage_keep halloc hused
  have hpath : OnePath s₁ z 2 (frameOf (s.mem root 0)) := by
    refine hbelow.keep fun f hf => ?_
    obtain ⟨-, hcount, hframe⟩ := allocatePhysicalPage_keep halloc hf
    exact ⟨hcount ▸ hf, hframe⟩
  have hfirst := PathShared.entry halloc hone hused
    (hpath.cloneTable hz (hcount ▸ hused) hroomy₁ (by omega))
  have hrounds : ∃ s', loopRounds (fun i s =>
        if 256 ≤ i then .ok (s.writeWord new i (s.mem root i))
        else cloneEntry (GlitchedOS.cloneTable 2) root new i s) 512 s₁ = .ok s' ∧
      PathShared z (k + 4) s s' := by
    refine loopRounds_first ?_ (fun i st hi hst => ?_) (by decide : 1 ≤ 512)
    · rw [if_neg (by decide)]
      exact hfirst
    · split
      · exact ⟨_, rfl, hst.writeWord hfree i _⟩
      · exact ⟨st, hst.entry_absent hone hi, hst⟩
  obtain ⟨s', hrounds, hshared⟩ := hrounds
  refine ⟨new, s', ?_, hshared⟩
  rw [GlitchedOS.clonePageTables, bind_ok]
  refine ⟨(new, s₁), halloc, ?_⟩
  rw [bind_ok]
  exact ⟨s', hrounds, rfl⟩

/-! ### The machine with 128 GiB of memory -/

/-- An address space of one zero page is cloned, and the clone torn down. -/
theorem fork_exit_restores_large : ∃ s root new s' s'',
    clonePageTables s root = .ok (new, s') ∧
    Run (ChildStep new) s' [.cowHandler 0] s'' ∧
    (∀ f < s.usablePageCount,
      (freePageTables s'' new).memoryBitmap f = s.memoryBitmap f) ∧
    ∀ a < lowerHalf, translate (freePageTables s'' new) root a = translate s root a := by
  obtain ⟨s₀, hinit, hroomy, husable, hzne, hone, -⟩ := large_boots
  have hcons := bootSystem_consistent largeRoot_bootTables hinit
  have hc : Counted s₀ (bootSystem largeRoot largeMemmap s₀).held [(4, largeRoot)] :=
    hcons.counted
  have hheld : (bootSystem largeRoot largeMemmap s₀).held s₀.zeroPage = 1 := hcons.zero
  obtain ⟨root, s, hadded⟩ := pageAdded_exists userFlags hc hheld hzne
    (by rw [hone]; decide) hroomy 3 (by rw [husable]; decide)
  have hcount : s.memoryBitmap s₀.zeroPage = 2 := by rw [hadded.count, hone]
  have hroom : Room s 4 root := by
    intro f hf
    rw [hadded.path.leafCount] at hf ⊢
    split at hf
    next hfz =>
      rw [if_pos hfz, ← hfz, hcount]
      decide
    next => exact absurd hf (Nat.lt_irrefl 0)
  obtain ⟨new, s', hclone, hshared⟩ := hadded.path.clonePageTables hzne (by rw [hcount]; decide)
    hadded.roomy (by rw [hadded.usable, husable]; decide)
  obtain ⟨resolved, s'', hcow⟩ := cowHandler_progress hshared.roomy
    (by rw [hshared.usable, hadded.usable, husable]; decide) new 0
  have hrun : Run (ChildStep new) s' [.cowHandler 0] s'' :=
    .single (.cowHandler (by decide) hcow)
  exact ⟨s, root, new, s', s'', hclone, hrun,
    fork_exit_restores hadded.counted hroom hclone hrun⟩

/-- Where the zero page is mapped `2 ^ 32 - 2` times, the counts are exact, and a clone
takes its count to `0`. -/
theorem fork_exit_loses_count : ∃ s held trees root new s',
    Counted s held ((4, root) :: trees) ∧
    clonePageTables s root = .ok (new, s') ∧
    ∃ f < s.usablePageCount,
      (freePageTables s' new).memoryBitmap f ≠ s.memoryBitmap f := by
  obtain ⟨s₀, hinit, hroomy, husable, hzne, hone, habs⟩ := large_boots
  have hcons := bootSystem_consistent largeRoot_bootTables hinit
  have hc : Counted s₀ (bootSystem largeRoot largeMemmap s₀).held [(4, largeRoot)] :=
    hcons.counted
  have hheld : (bootSystem largeRoot largeMemmap s₀).held s₀.zeroPage = 1 := hcons.zero
  have hzlt := hc.held_lt s₀.zeroPage (by omega)
  have hrounds : pageRounds wrapStart (pageAlign (wrapStart + (2 ^ 32 - 3) * pageSize)) =
      2 ^ 32 - 3 := by decide
  have hfits : s₀.memoryBitmap s₀.zeroPage +
      pageRounds wrapStart (pageAlign (wrapStart + (2 ^ 32 - 3) * pageSize)) < 2 ^ 32 := by
    rw [hone, hrounds]
    decide
  obtain ⟨s₁, hok, hroomy₁⟩ := allocZeroRegion_progress userFlags hc hheld hzne
    (by decide) (by decide) hfits habs hroomy (by rw [hrounds, husable]; decide)
  obtain ⟨hc₁, hmapped⟩ := allocZeroRegion_spec hc hheld (by decide) hfits hok
  rw [hrounds] at hmapped hroomy₁
  have hcount₁ : s₁.memoryBitmap s₀.zeroPage = 2 ^ 32 - 2 := by
    rw [hmapped.bitmap _ (by omega), if_pos rfl, hone]
    decide
  obtain ⟨root, s, hadded⟩ := pageAdded_exists userFlags hc₁ hheld hzne
    (by rw [hcount₁]; decide) hroomy₁ 3 (by rw [hmapped.usable, husable]; decide)
  have hcount : s.memoryBitmap s₀.zeroPage = 2 ^ 32 - 1 := by
    rw [hadded.count, hcount₁]
    decide
  obtain ⟨new, s', hclone, hshared⟩ := hadded.path.clonePageTables hzne (by rw [hcount]; decide)
    hadded.roomy (by rw [hadded.usable, hmapped.usable, husable]; decide)
  refine ⟨s, _, _, root, new, s', hadded.counted, hclone, s₀.zeroPage, ?_, ?_⟩
  · rw [hadded.usable, hmapped.usable]
    exact hzlt
  · have hzero : s'.memoryBitmap s₀.zeroPage = 0 := by
      rw [hshared.count, hcount]
      decide
    rw [freePageTables, PhysMem.decCount_memoryBitmap,
      (freeTable_spec 3 256 new s' (Nat.le_refl 3)).2, hzero, hcount]
    omega

end GlitchedOS
