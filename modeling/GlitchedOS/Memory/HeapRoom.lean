/-
Whether the kernel heap can run out of table entries.  A region that is freed
keeps its size, and an allocation smaller than the first free region it fits in
leaves one entry more.  The table holds 1023 entries, so the sizes a kernel asks
for, not the amount it holds, decide whether `kmalloc` panics.
-/
import Mathlib.Algebra.Order.BigOperators.Group.List
import GlitchedOS.Memory.Mman
import GlitchedOS.Lib.Run

namespace GlitchedOS

inductive HeapOp where
  | kmalloc (size : Nat)
  | kfree (ptr : Nat)
deriving Repr, DecidableEq

/-- The address map, and the blocks handed out and not freed. -/
structure HeapState where
  heap : HeapMap
  live : List Nat
deriving Repr, DecidableEq

/-- One call; `error` is a panic of `find_available_va`. -/
def HeapState.call (s : HeapState) : HeapOp → Except HeapPanic HeapState
  | .kmalloc size =>
      match findAvailableVa s.heap (kmallocPages size) with
      | .error reason => .error reason
      | .ok (ptr, heap) => .ok ⟨heap, ptr :: s.live⟩
  | .kfree ptr => .ok ⟨(kfreeMap s.heap ptr).2, s.live.erase ptr⟩

/-- The state after a call, which stays as it was if the call panics. -/
def HeapState.next (s : HeapState) (op : HeapOp) : HeapState :=
  match s.call op with
  | .error _ => s
  | .ok s' => s'

def HeapState.boot (executableSize : Nat) : HeapState :=
  ⟨initMman executableSize, []⟩

/-- At most 512 blocks are live, of at least one byte and at most 64 pages each, and
only live blocks are freed. -/
def Modest (s : HeapState) : HeapOp → Prop
  | .kmalloc size => 1 ≤ size ∧ size ≤ 64 * pageSize ∧ s.live.length < 512
  | .kfree ptr => ptr ∈ s.live ∨ ptr < s.heap.kernelHeapStart

instance Modest.decidable (s : HeapState) (op : HeapOp) : Decidable (Modest s op) :=
  match op with
  | .kmalloc _ => inferInstanceAs (Decidable (_ ∧ _ ∧ _))
  | .kfree _ => inferInstanceAs (Decidable (_ ∨ _))

def Succeeds (s : HeapState) (op : HeapOp) : Prop :=
  ∃ s', s.call op = .ok s'

/-- If only one entry of the table is unused, the first free region that a block fits
in has exactly its size. -/
def KeepsEntry (s : HeapState) : HeapOp → Prop
  | .kmalloc size =>
      allocMapSize ≤ s.heap.map.length + 1 →
        ∀ r, s.heap.map.find? (·.fits (kmallocPages size)) = some r →
          toSizeT r.pages = kmallocPages size
  | .kfree _ => True

/-! ### Sizes -/

theorem kmallocPages_le {size count : Nat} (hcount : count < 2 ^ 51)
    (hsize : size ≤ count * pageSize) : kmallocPages size ≤ count := by
  rw [kmallocPages, pageAlign64, pageSize] at *
  omega

theorem kmallocPages_pos {size : Nat} (hpos : 1 ≤ size) (hsize : size < 2 ^ 63) :
    1 ≤ kmallocPages size := by
  rw [kmallocPages, pageAlign64, pageSize]
  omega

/-! ### What the table keeps -/

/-- The largest region there is: the two gigabytes from `0xFFFFFFFF80000000`, less
the last page. -/
def maxRegionPages : Nat := 0x7FFFF

/-- A region of a size the table can hold, of at most 64 pages if it is in use. -/
structure MappedRegion.Modest (r : MappedRegion) : Prop where
  pos : 1 ≤ r.pages
  le : r.pages ≤ maxRegionPages
  inUse : r.free = false → r.pages ≤ 64

/-- The regions of a table share out `total` pages. -/
structure HeapRoom (total : Int) (m : List MappedRegion) : Prop where
  length_lt : m.length < allocMapSize
  modest : ∀ r ∈ m, r.Modest
  sum : (m.map MappedRegion.pages).sum = total

namespace MappedRegion.Modest

variable {r : MappedRegion} {size : Nat}

theorem toSizeT_pages (hr : r.Modest) : (toSizeT r.pages : Int) = r.pages := by
  have hpos := hr.pos
  have hle := hr.le
  obtain ⟨n, hn⟩ := Int.eq_ofNat_of_zero_le (show 0 ≤ r.pages by omega)
  rw [hn] at hle ⊢
  rw [toSizeT_natCast (by rw [maxRegionPages] at hle; omega)]

theorem size_le (hr : r.Modest) (hfits : r.fits size = true) : size ≤ r.pages := by
  rw [MappedRegion.fits, Bool.and_eq_true, decide_eq_true_iff] at hfits
  rw [← hr.toSizeT_pages]
  exact_mod_cast hfits.2

theorem taken_pages (hr : r.Modest) (hfits : r.fits size = true) :
    (r.taken size).pages = size := by
  have hsize := hr.size_le hfits
  have hle := hr.le
  rw [maxRegionPages] at hle
  have hlt : size < 2 ^ 31 := by omega
  rw [MappedRegion.taken, toInt32_natCast hlt]

theorem rest_pages (hr : r.Modest) (hfits : r.fits size = true) :
    (r.rest size).pages = r.pages - size := by
  have hsize := hr.size_le hfits
  have hle := hr.le
  rw [maxRegionPages] at hle
  obtain ⟨n, hn⟩ := Int.eq_ofNat_of_zero_le (show 0 ≤ r.pages - size by omega)
  have hlt : n < 2 ^ 31 := by omega
  rw [MappedRegion.rest, hr.toSizeT_pages, hn, toInt32_natCast hlt]

theorem taken (hr : r.Modest) (hfits : r.fits size = true) (hpos : 1 ≤ size)
    (hle : size ≤ 64) : (r.taken size).Modest where
  pos := by rw [hr.taken_pages hfits]; omega
  le := by rw [hr.taken_pages hfits, maxRegionPages]; omega
  inUse _ := by rw [hr.taken_pages hfits]; omega

theorem rest (hr : r.Modest) (hfits : r.fits size = true)
    (hless : size < toSizeT r.pages) : (r.rest size).Modest where
  pos := by
    rw [hr.rest_pages hfits, ← hr.toSizeT_pages]
    omega
  le := by
    have hle := hr.le
    rw [hr.rest_pages hfits]
    omega
  inUse h := by cases h

end MappedRegion.Modest

namespace HeapRoom

variable {total : Int} {h h' : HeapMap} {size ptr : Nat}

/-- The table after a search that succeeds. -/
theorem findAvailableVa (hroom : HeapRoom total h.map) (hpos : 1 ≤ size)
    (hle : size ≤ 64) (hfind : GlitchedOS.findAvailableVa h size = .ok (ptr, h')) :
    HeapRoom total h'.map := by
  obtain ⟨before, r, after, hmap, -, hfits, -, -, hcases⟩ := findAvailableVa_ok hfind
  have hmodest : ∀ x ∈ before ++ r :: after, x.Modest := hmap ▸ hroom.modest
  have hr : r.Modest := hmodest r (by simp)
  have htaken := hr.taken hfits hpos hle
  have hsum := hroom.sum
  have hlength := hroom.length_lt
  rw [hmap] at hsum hlength
  simp only [List.map_append, List.map_cons, List.sum_append, List.sum_cons] at hsum
  obtain ⟨hless, hfree, hmap'⟩ | ⟨hsame, hmap'⟩ := hcases
  · have hrest := hr.rest hfits hless
    rw [hmap] at hfree
    constructor
    · rw [hmap']
      simp at hfree ⊢
      omega
    · intro x hx
      rw [hmap'] at hx
      simp only [List.mem_append, List.mem_cons, List.not_mem_nil, or_false] at hx
      rcases hx with (hx | rfl | hx) | rfl
      · exact hmodest x (by simp [hx])
      · exact htaken
      · exact hmodest x (by simp [hx])
      · exact hrest
    · rw [hmap']
      simp only [List.map_append, List.map_cons, List.map_nil, List.sum_append,
        List.sum_cons, List.sum_nil, hr.taken_pages hfits, hr.rest_pages hfits]
      omega
  · constructor
    · rw [hmap']
      simpa using hlength
    · intro x hx
      rw [hmap'] at hx
      simp only [List.mem_append, List.mem_cons] at hx
      rcases hx with hx | rfl | hx
      · exact hmodest x (by simp [hx])
      · exact htaken
      · exact hmodest x (by simp [hx])
    · have hpages : r.pages = size := by rw [← hr.toSizeT_pages, hsame]
      rw [hmap']
      simp only [List.map_append, List.map_cons, List.sum_append, List.sum_cons,
        hr.taken_pages hfits]
      omega

end HeapRoom

theorem kfreeMap_pages (h : HeapMap) (ptr : Nat) :
    (kfreeMap h ptr).2.map.map MappedRegion.pages = h.map.map MappedRegion.pages := by
  rw [kfreeMap]
  split
  · rfl
  apply List.ext_getElem
  · simp
  intro j hj hj'
  simp only [List.getElem_map, List.getElem_modify]
  split <;> rfl

namespace HeapRoom

variable {total : Int} {h : HeapMap} {size : Nat}

theorem kfreeMap (hroom : HeapRoom total h.map) (ptr : Nat) :
    HeapRoom total (GlitchedOS.kfreeMap h ptr).2.map where
  length_lt := by
    have hlength := congrArg List.length (kfreeMap_pages h ptr)
    rw [List.length_map, List.length_map] at hlength
    rw [hlength]
    exact hroom.length_lt
  modest := by
    rw [GlitchedOS.kfreeMap]
    split
    · exact hroom.modest
    intro x hx
    obtain ⟨j, hj, rfl⟩ := List.mem_iff_getElem.mp hx
    have hj' : j < h.map.length := by simpa using hj
    have hmodest := hroom.modest _ (List.getElem_mem hj')
    rw [List.getElem_modify]
    split
    · exact ⟨hmodest.pos, hmodest.le, nofun⟩
    · exact hmodest
  sum := by rw [kfreeMap_pages, hroom.sum]

/-- More pages than 1023 regions of 64 have: one region is larger, and it is free. -/
theorem exists_fits (hroom : HeapRoom total h.map) (htotal : 64 * 1023 < total)
    (hle : size ≤ 64) : ∃ r ∈ h.map, r.fits size = true := by
  by_contra hnone
  push Not at hnone
  have hsmall : ∀ n ∈ h.map.map MappedRegion.pages, n ≤ 64 := by
    intro n hn
    obtain ⟨r, hr, rfl⟩ := List.mem_map.mp hn
    by_contra hlarge
    have hmodest := hroom.modest r hr
    have hfree : r.free = true := by
      by_contra hfree
      exact hlarge (hmodest.inUse (by simpa using hfree))
    have hpages := hmodest.toSizeT_pages
    apply hnone r hr
    rw [MappedRegion.fits, hfree, Bool.true_and, decide_eq_true_iff]
    omega
  have hsum := List.sum_le_card_nsmul _ 64 hsmall
  rw [hroom.sum, List.length_map, nsmul_eq_mul] at hsum
  have hlength := hroom.length_lt
  rw [allocMapSize] at hlength
  omega

end HeapRoom

theorem find?_eq_some_of_split {m before after : List MappedRegion}
    {r : MappedRegion} {size : Nat} (hmap : m = before ++ r :: after)
    (hbefore : ∀ x ∈ before, x.fits size = false) (hfits : r.fits size = true) :
    m.find? (·.fits size) = some r := by
  rw [List.find?_eq_some_iff_append]
  refine ⟨hfits, before, after, hmap, ?_⟩
  intro x hx
  rw [hbefore x hx]
  rfl

/-- A search in a table with room enough succeeds exactly when it does not split a
region for the last entry. -/
theorem findAvailableVa_ok_iff {total : Int} {h : HeapMap} {size : Nat}
    (hroom : HeapRoom total h.map) (htotal : 64 * 1023 < total) (hle : size ≤ 64) :
    (∃ result, findAvailableVa h size = .ok result) ↔
      (allocMapSize ≤ h.map.length + 1 →
        ∀ r, h.map.find? (·.fits size) = some r → toSizeT r.pages = size) := by
  constructor
  · rintro ⟨⟨ptr, h'⟩, hfind⟩ hfull r hr
    obtain ⟨before, r', after, hmap, hbefore, hfits, -, -, hcases⟩ :=
      findAvailableVa_ok hfind
    rw [find?_eq_some_of_split hmap hbefore hfits] at hr
    cases hr
    rcases hcases with ⟨-, hless, -⟩ | ⟨hsame, -⟩
    · exact absurd hfull (not_le.mpr hless)
    · exact hsame.symm
  · intro hkeeps
    cases hfind : findAvailableVa h size with
    | ok result => exact ⟨result, rfl⟩
    | error reason =>
        exfalso
        rcases findAvailableVa_error hfind with hnone | hsplit
        · obtain ⟨r, hr, hfits⟩ := hroom.exists_fits htotal hle
          rw [hnone r hr] at hfits
          cases hfits
        · obtain ⟨before, r, after, hmap, hbefore, hfits, hless, hfull⟩ := hsplit
          have hsame := hkeeps hfull r (find?_eq_some_of_split hmap hbefore hfits)
          omega

/-! ### Runs -/

theorem HeapState.call_kmalloc_iff {s : HeapState} {size : Nat} :
    Succeeds s (.kmalloc size) ↔
      ∃ result, findAvailableVa s.heap (kmallocPages size) = .ok result := by
  rw [Succeeds, HeapState.call]
  cases findAvailableVa s.heap (kmallocPages size) with
  | error reason => simp
  | ok result => simp

theorem HeapRoom.step {total : Int} (htotal : 64 * 1023 < total) (s : HeapState)
    (op : HeapOp) (hroom : HeapRoom total s.heap.map) (hop : Modest s op) :
    (Succeeds s op ↔ KeepsEntry s op) ∧
      (Succeeds s op → HeapRoom total (s.next op).heap.map) := by
  cases op with
  | kmalloc size =>
      obtain ⟨hpos, hle, -⟩ := hop
      have hpages : kmallocPages size ≤ 64 := kmallocPages_le (by decide) hle
      rw [HeapState.call_kmalloc_iff]
      refine ⟨findAvailableVa_ok_iff hroom htotal hpages, ?_⟩
      rintro ⟨⟨ptr, h'⟩, hfind⟩
      rw [HeapState.next, HeapState.call, hfind]
      refine hroom.findAvailableVa (kmallocPages_pos hpos ?_) hpages hfind
      rw [pageSize] at hle
      omega
  | kfree ptr =>
      refine ⟨⟨fun _ => trivial, fun _ => ⟨_, rfl⟩⟩, fun _ => ?_⟩
      exact hroom.kfreeMap ptr

theorem HeapRoom.boot {executableSize : Nat} (hsize : executableSize ≤ 0x70000000) :
    ∃ total : Int, 64 * 1023 < total ∧
      HeapRoom total (HeapState.boot executableSize).heap.map := by
  obtain ⟨k, hk⟩ : ∃ k, k = (executableSize + (pageSize - 1)) / pageSize := ⟨_, rfl⟩
  have hboot : (HeapState.boot executableSize).heap.map =
      [⟨0xFFFFFFFF80000000 + k * pageSize, ((0x7FFFF - k : Nat) : Int), true⟩] := by
    rw [HeapState.boot, initMman_eq (by omega) hk]
  rw [pageSize] at hk
  refine ⟨((0x7FFFF - k : Nat) : Int), by omega, ?_⟩
  rw [hboot]
  refine ⟨by simp [allocMapSize], ?_, by simp⟩
  intro r hr
  rw [List.mem_singleton] at hr
  subst hr
  refine ⟨?_, ?_, fun hfree => Bool.noConfusion hfree⟩
  · dsimp only
    omega
  · dsimp only
    rw [maxRegionPages]
    omega

/-! ### Runs that fill the table -/

/-- If every region a block fits in is larger than it, each successful `kmalloc`
takes one entry more.  `P j` is what a region satisfies while `j` calls are to
come. -/
theorem length_of_splits {size n : Nat} (hn : kmallocPages size = n)
    (P : Nat → MappedRegion → Prop) (hkeep : ∀ j r, P (j + 1) r → P j r)
    (hsplit : ∀ j r, P (j + 1) r → r.fits n = true →
      n ≠ toSizeT r.pages ∧ P j (r.taken n) ∧ P j (r.rest n)) :
    ∀ (j : Nat) (s : HeapState), (∀ r ∈ s.heap.map, P j r) →
      s.heap.map.length < allocMapSize →
      Along HeapState.next Succeeds s (List.replicate j (.kmalloc size)) →
      (∀ r ∈ ((List.replicate j (.kmalloc size)).foldl HeapState.next s).heap.map,
        P 0 r) ∧
      ((List.replicate j (.kmalloc size)).foldl HeapState.next s).heap.map.length =
        s.heap.map.length + j ∧ s.heap.map.length + j < allocMapSize
  | 0, s, hP, hlt, _ => ⟨hP, rfl, hlt⟩
  | j + 1, s, hP, hlt, hok => by
      rw [List.replicate_succ] at hok ⊢
      obtain ⟨⟨⟨ptr, h'⟩, hfind⟩, hrest⟩ :=
        And.imp_left HeapState.call_kmalloc_iff.mp hok
      rw [hn] at hfind
      obtain ⟨s', hnext, hheap⟩ : ∃ s', s.next (.kmalloc size) = s' ∧ s'.heap = h' := by
        rw [HeapState.next, HeapState.call, hn, hfind]
        exact ⟨_, rfl, rfl⟩
      rw [hnext] at hrest
      rw [List.foldl_cons, hnext]
      obtain ⟨before, r, after, hmap, -, hfits, -, -, hcases⟩ := findAvailableVa_ok hfind
      obtain ⟨hne, htaken, hrestP⟩ := hsplit j r (hP r (by simp [hmap])) hfits
      rcases hcases with ⟨-, hroom, hmap'⟩ | ⟨hsame, -⟩
      · have hlength : s'.heap.map.length = s.heap.map.length + 1 := by
          rw [hheap, hmap', hmap]
          simp
          omega
        have hP' : ∀ x ∈ s'.heap.map, P j x := by
          intro x hx
          rw [hheap, hmap'] at hx
          simp only [List.mem_append, List.mem_cons, List.not_mem_nil, or_false] at hx
          rcases hx with (hx | rfl | hx) | rfl
          · exact hkeep j x (hP x (by simp [hmap, hx]))
          · exact htaken
          · exact hkeep j x (hP x (by simp [hmap, hx]))
          · exact hrestP
        obtain ⟨hend, hcount, hbound⟩ :=
          length_of_splits hn P hkeep hsplit j s' hP' (by omega) hrest
        exact ⟨hend, by omega, by omega⟩
      · exact absurd hsame hne

theorem modest_kmallocs (size : Nat) (hpos : 1 ≤ size) (hle : size ≤ 64 * pageSize) :
    ∀ (j : Nat) (s : HeapState), s.live.length + j ≤ 512 →
      Along HeapState.next Modest s (List.replicate j (.kmalloc size))
  | 0, _, _ => trivial
  | j + 1, s, hlive => by
      refine ⟨⟨hpos, hle, by omega⟩, modest_kmallocs size hpos hle j _ ?_⟩
      rw [HeapState.next, HeapState.call]
      cases findAvailableVa s.heap (kmallocPages size) with
      | error reason => exact (by omega : s.live.length + j ≤ 512)
      | ok result =>
          rw [List.length_cons]
          omega

/-- Freeing every block leaves none, and changes no size. -/
theorem kfree_all :
    ∀ (live : List Nat) (s : HeapState), s.live = live →
      Along HeapState.next Modest s (live.map .kfree) ∧
      ((live.map HeapOp.kfree).foldl HeapState.next s).live = [] ∧
      ((live.map HeapOp.kfree).foldl HeapState.next s).heap.map.map
        MappedRegion.pages = s.heap.map.map MappedRegion.pages
  | [], s, hlive => ⟨trivial, hlive, rfl⟩
  | ptr :: live, s, hlive => by
      have hnext : (s.next (.kfree ptr)).live = live := by
        rw [HeapState.next, HeapState.call, hlive, List.erase_cons_head]
      obtain ⟨hmodest, hend, hpages⟩ := kfree_all live (s.next (.kfree ptr)) hnext
      refine ⟨⟨Or.inl ?_, hmodest⟩, hend, hpages.trans (kfreeMap_pages s.heap ptr)⟩
      rw [hlive]
      exact List.mem_cons_self

theorem HeapState.next_length_le (s : HeapState) (op : HeapOp) :
    (s.next op).heap.map.length ≤ s.heap.map.length + 1 ∧
      (s.next op).live.length ≤ s.live.length + 1 := by
  cases op with
  | kfree ptr =>
      have hlength := congrArg List.length (kfreeMap_pages s.heap ptr)
      rw [List.length_map, List.length_map] at hlength
      exact ⟨hlength.le.trans (Nat.le_succ _), List.length_erase_le.trans (Nat.le_succ _)⟩
  | kmalloc size =>
      rw [HeapState.next, HeapState.call]
      cases hfind : findAvailableVa s.heap (kmallocPages size) with
      | error reason => exact ⟨Nat.le_succ _, Nat.le_succ _⟩
      | ok result =>
          refine ⟨?_, Nat.le_refl _⟩
          obtain ⟨before, r, after, hmap, -, -, -, -, ⟨-, -, hmap'⟩ | ⟨-, hmap'⟩⟩ :=
            findAvailableVa_ok hfind
          · simp [hmap, hmap']
            omega
          · simp [hmap, hmap']

theorem foldl_length_le (ops : List HeapOp) (s : HeapState) :
    (ops.foldl HeapState.next s).heap.map.length ≤ s.heap.map.length + ops.length ∧
      (ops.foldl HeapState.next s).live.length ≤ s.live.length + ops.length := by
  induction ops generalizing s with
  | nil => exact ⟨Nat.le_refl _, Nat.le_refl _⟩
  | cons op ops ih =>
      have hnext := s.next_length_le op
      have htail := ih (s.next op)
      rw [List.foldl_cons, List.length_cons]
      omega

/-- As long as two entries of the table are unused, any block may be taken. -/
theorem keeps_kmallocs (size : Nat) : ∀ (j : Nat) (s : HeapState),
    s.heap.map.length + j < allocMapSize →
      Along HeapState.next KeepsEntry s (List.replicate j (.kmalloc size))
  | 0, _, _ => trivial
  | j + 1, s, hlength => by
      have hnext := (s.next_length_le (.kmalloc size)).1
      exact ⟨fun hfull => absurd hfull (by omega), keeps_kmallocs size j _ (by omega)⟩

/-- Blocks that are all freed again, and then other blocks. -/
def freeAndTake (blocks more : List HeapOp) (s : HeapState) : List HeapOp :=
  blocks ++ ((blocks.foldl HeapState.next s).live.map .kfree ++ more)

section FreeAndTake

variable {blocks more : List HeapOp} {s s₁ s₂ : HeapState}
  (hs₁ : blocks.foldl HeapState.next s = s₁)
  (hs₂ : (s₁.live.map HeapOp.kfree).foldl HeapState.next s₁ = s₂)

include hs₁ hs₂

theorem along_freeAndTake {C : HeapState → HeapOp → Prop} :
    Along HeapState.next C s (freeAndTake blocks more s) ↔
      Along HeapState.next C s blocks ∧
        Along HeapState.next C s₁ (s₁.live.map .kfree) ∧
          Along HeapState.next C s₂ more := by
  rw [freeAndTake, Along.append, hs₁, Along.append, hs₂]

theorem foldl_freeAndTake : (freeAndTake blocks more s).foldl HeapState.next s =
    more.foldl HeapState.next s₂ := by
  rw [freeAndTake, List.foldl_append, hs₁, List.foldl_append, hs₂]

end FreeAndTake

theorem modest_freeAndTake {s : HeapState} (hlive : s.live = []) {size more n m : Nat}
    (hsize : 1 ≤ size ∧ size ≤ 64 * pageSize) (hmore : 1 ≤ more ∧ more ≤ 64 * pageSize)
    (hn : n ≤ 512) (hm : m ≤ 512) :
    Along HeapState.next Modest s
      (freeAndTake (List.replicate n (.kmalloc size)) (List.replicate m (.kmalloc more)) s) := by
  obtain ⟨hfrees, hnone, -⟩ :=
    kfree_all _ ((List.replicate n (HeapOp.kmalloc size)).foldl HeapState.next s) rfl
  refine (along_freeAndTake rfl rfl).mpr ⟨?_, hfrees, ?_⟩
  · exact modest_kmallocs _ hsize.1 hsize.2 n _ (by rw [hlive, List.length_nil]; omega)
  · exact modest_kmallocs _ hmore.1 hmore.2 m _ (by rw [hnone, List.length_nil]; omega)

theorem MappedRegion.Modest.of_fits {r : MappedRegion} {n : Nat}
    (hfits : r.fits n = true) (hpos : 1 ≤ r.pages) (hle : r.pages ≤ maxRegionPages) :
    r.Modest := by
  rw [MappedRegion.fits, Bool.and_eq_true] at hfits
  exact ⟨hpos, hle, fun h => by rw [hfits.1] at h; cases h⟩

/-- The first region of the table is a free page. -/
def FreePage (s : HeapState) : Prop :=
  ∃ start rest, s.heap.map = ⟨start, 1, true⟩ :: rest

theorem FreePage.next {s : HeapState} {op : HeapOp} (h : FreePage s)
    (hop : ∀ size, op = .kmalloc size → 2 ≤ kmallocPages size) : FreePage (s.next op) := by
  obtain ⟨start, rest, hmap⟩ := h
  cases op with
  | kfree ptr =>
      change FreePage ⟨(kfreeMap s.heap ptr).2, _⟩
      rw [kfreeMap]
      split
      · exact ⟨start, rest, hmap⟩
      · change FreePage ⟨⟨_, s.heap.map.modify _ _⟩, _⟩
        rw [hmap]
        cases (kfreeLoop ptr (⟨start, 1, true⟩ :: rest) 0 (0, 0)).1 with
        | zero => exact ⟨start, rest, rfl⟩
        | succ i => exact ⟨start, _, List.modify_succ_cons ..⟩
  | kmalloc size =>
      have htwo := hop size rfl
      rw [HeapState.next, HeapState.call]
      cases hfind : findAvailableVa s.heap (kmallocPages size) with
      | error reason => exact ⟨start, rest, hmap⟩
      | ok result =>
          obtain ⟨before, r, after, hsplit, -, hfits, -, -, hcases⟩ := findAvailableVa_ok hfind
          rw [hmap] at hsplit
          cases before with
          | nil =>
              obtain ⟨rfl, -⟩ := List.cons.inj hsplit
              rw [MappedRegion.fits, Bool.true_and, decide_eq_true_iff] at hfits
              change kmallocPages size ≤ 1 at hfits
              omega
          | cons first before =>
              obtain ⟨rfl, -⟩ := List.cons.inj hsplit
              obtain ⟨-, -, hmap'⟩ | ⟨-, hmap'⟩ := hcases
              · exact ⟨start, _, hmap'⟩
              · exact ⟨start, _, hmap'⟩

theorem FreePage.keepsEntry {s : HeapState} (h : FreePage s) : KeepsEntry s (.kmalloc 1) := by
  obtain ⟨start, rest, hmap⟩ := h
  intro _ r hr
  rw [hmap, List.find?_cons_of_pos (by rfl)] at hr
  obtain rfl := Option.some.inj hr
  rfl

/-- While blocks of `n` pages are taken, each region is one of them, too small for them,
or the rest of the heap. -/
def BlockOrRest (base n j : Nat) (r : MappedRegion) : Prop :=
  (1 ≤ r.pages ∧ r.pages < n ∨ r.free = false ∧ r.pages = n) ∨
    (n * (j : Int) + base < r.pages ∧ r.pages ≤ maxRegionPages)

theorem BlockOrRest.split {base n : Nat} (hn : n ≤ 64) (j : Nat) (r : MappedRegion)
    (hr : BlockOrRest base n (j + 1) r) (hfits : r.fits n = true) :
    n ≠ toSizeT r.pages ∧ BlockOrRest base n j (r.taken n) ∧ BlockOrRest base n j (r.rest n) := by
  rcases hr with (⟨hpos, hless⟩ | ⟨hused, -⟩) | ⟨hlow, hhigh⟩
  · have hmodest := MappedRegion.Modest.of_fits hfits hpos (by rw [maxRegionPages]; omega)
    exact absurd (hmodest.size_le hfits) (not_le.mpr hless)
  · rw [MappedRegion.fits, hused] at hfits
    cases hfits
  · have hnext : (n : Int) * ((j + 1 : Nat) : Int) = n * j + n := by
      rw [Nat.cast_succ, mul_add, mul_one]
    have hblocks : (0 : Int) ≤ n * j := 
      Int.mul_nonneg (Int.natCast_nonneg n) (Int.natCast_nonneg j)
    have hmodest := MappedRegion.Modest.of_fits hfits (by omega) hhigh
    have hpages := hmodest.toSizeT_pages
    refine ⟨by omega, .inl (.inr ⟨rfl, hmodest.taken_pages hfits⟩), .inr ?_⟩
    rw [hmodest.rest_pages hfits]
    omega

/-- A block takes an entry of its own as long as the rest of the heap lasts. -/
theorem length_of_blocks {base n size count : Nat} (hn : kmallocPages size = n) (hle : n ≤ 64)
    {s : HeapState} (hregions : ∀ r ∈ s.heap.map, BlockOrRest base n count r)
    (hlength : s.heap.map.length < allocMapSize)
    (hok : Along HeapState.next Succeeds s (List.replicate count (.kmalloc size))) :
    (∀ r ∈ ((List.replicate count (.kmalloc size)).foldl HeapState.next s).heap.map,
      BlockOrRest base n 0 r) ∧
    ((List.replicate count (.kmalloc size)).foldl HeapState.next s).heap.map.length =
      s.heap.map.length + count := by
  obtain ⟨hend, hcount, -⟩ := length_of_splits hn (BlockOrRest base n)
    (fun j r h => h.imp_right fun h => ⟨lt_of_le_of_lt (by rw [Nat.cast_succ, mul_add]; omega) h.1,
      h.2⟩)
    (BlockOrRest.split hle) count s hregions hlength hok
  exact ⟨hend, hcount⟩

section FillingUp

/-- Blocks of two pages, all freed again, and blocks of three pages. -/
def growingBlocks (s : HeapState) : List HeapOp :=
  freeAndTake (List.replicate 512 (.kmalloc (2 * pageSize)))
    (List.replicate 509 (.kmalloc (3 * pageSize))) s

variable {s : HeapState} (hlength : s.heap.map.length = 2)

include hlength

theorem keeps_growingBlocks : Along HeapState.next KeepsEntry s (growingBlocks s) := by
  generalize hs₁ : (List.replicate 512 (.kmalloc (2 * pageSize))).foldl HeapState.next s = s₁
  generalize hs₂ : (s₁.live.map HeapOp.kfree).foldl HeapState.next s₁ = s₂
  have hfirst := (foldl_length_le (List.replicate 512 (.kmalloc (2 * pageSize))) s).1
  have hpages := congrArg List.length (kfree_all s₁.live s₁ rfl).2.2
  rw [List.length_map, List.length_map, hs₂] at hpages
  rw [hs₁, hlength, List.length_replicate] at hfirst
  refine (along_freeAndTake hs₁ hs₂).mpr ⟨keeps_kmallocs _ _ _ (by rw [hlength]; decide), ?_,
    keeps_kmallocs _ _ _ (by rw [hpages, allocMapSize]; omega)⟩
  refine (Along.of_forall (C := fun op => ∃ ptr, op = .kfree ptr) fun op hop => ?_).mono ?_
  · obtain ⟨ptr, -, rfl⟩ := List.mem_map.mp hop
    exact ⟨ptr, rfl⟩
  · rintro _ _ ⟨ptr, rfl⟩
    trivial

theorem length_growingBlocks (hregions : ∀ r ∈ s.heap.map, BlockOrRest 500000 2 512 r)
    (hok : Along HeapState.next Succeeds s (growingBlocks s)) :
    ((growingBlocks s).foldl HeapState.next s).heap.map.length + 1 = allocMapSize := by
  generalize hs₁ : (List.replicate 512 (.kmalloc (2 * pageSize))).foldl HeapState.next s = s₁
  generalize hs₂ : (s₁.live.map HeapOp.kfree).foldl HeapState.next s₁ = s₂
  obtain ⟨htwo, -, hthree⟩ := (along_freeAndTake hs₁ hs₂).mp hok
  obtain ⟨hsizes, hcount⟩ := length_of_blocks (by decide) (by decide) hregions
    (by rw [hlength]; decide) htwo
  rw [hs₁] at hsizes hcount
  obtain ⟨-, -, hpages⟩ := kfree_all s₁.live s₁ rfl
  rw [hs₂] at hpages
  have hsame := congrArg List.length hpages
  rw [List.length_map, List.length_map] at hsame
  have hrest : ∀ r ∈ s₂.heap.map, BlockOrRest 400000 3 509 r := by
    intro r hr
    have hmem := List.mem_map_of_mem (f := MappedRegion.pages) hr
    rw [hpages] at hmem
    obtain ⟨r', hr', heq⟩ := List.mem_map.mp hmem
    rw [BlockOrRest, ← heq]
    rcases hsizes r' hr' with hsmall | ⟨hlow, hhigh⟩
    · exact .inl (.inl (by omega))
    · exact .inr ⟨by omega, hhigh⟩
  obtain ⟨-, hend⟩ := length_of_blocks (by decide) (by decide) hrest
    (by rw [hsame, hcount, hlength]; decide) hthree
  rw [growingBlocks, foldl_freeAndTake hs₁ hs₂, hend, hsame, hcount, hlength]
  rfl

end FillingUp

theorem live_growingBlocks (s : HeapState) :
    ((growingBlocks s).foldl HeapState.next s).live.length < 512 := by
  generalize hs₁ : (List.replicate 512 (.kmalloc (2 * pageSize))).foldl HeapState.next s = s₁
  generalize hs₂ : (s₁.live.map HeapOp.kfree).foldl HeapState.next s₁ = s₂
  obtain ⟨-, hnone, -⟩ := kfree_all s₁.live s₁ rfl
  have hthree := (foldl_length_le (List.replicate 509 (.kmalloc (3 * pageSize))) s₂).2
  rw [hs₂] at hnone
  rw [hnone, List.length_replicate, List.length_nil] at hthree
  rw [growingBlocks, foldl_freeAndTake hs₁ hs₂]
  omega

theorem FreePage.growingBlocks {s : HeapState} (h : FreePage s) :
    FreePage ((growingBlocks s).foldl HeapState.next s) := by
  refine List.foldlRecOn _ _ h fun s h op hop => h.next ?_
  rintro size rfl
  simp only [GlitchedOS.growingBlocks, freeAndTake, List.mem_append, List.mem_replicate,
    List.mem_map, HeapOp.kmalloc.injEq, reduceCtorEq, and_false, exists_false, false_or] at hop
  obtain ⟨-, rfl⟩ | ⟨-, rfl⟩ := hop <;> decide

/-- However long a run of modest calls is, no call of it panics exactly when none
splits a region for the last entry of the table. -/
theorem kmalloc_never_panics_iff {executableSize : Nat}
    (hsize : executableSize ≤ 0x70000000) {ops : List HeapOp}
    (hops : Along HeapState.next Modest (.boot executableSize) ops) :
    Along HeapState.next Succeeds (.boot executableSize) ops ↔
      Along HeapState.next KeepsEntry (.boot executableSize) ops := by
  obtain ⟨total, htotal, hroom⟩ := HeapRoom.boot hsize
  exact Along.iff_of_step (fun s => HeapRoom total s.heap.map)
    (HeapRoom.step htotal) hroom hops

def freedPage : HeapState :=
  ⟨⟨0xFFFFFFFF80200000, [⟨0xFFFFFFFF80200000, 1, true⟩, ⟨0xFFFFFFFF80201000, 523774, true⟩]⟩, []⟩

/-- The freed page, and blocks until one entry of the table is unused. -/
def fillingOps : List HeapOp :=
  .kmalloc 1 :: .kfree 0xFFFFFFFF80200000 :: growingBlocks freedPage

/-- With one unused entry a block takes the freed page. -/
theorem kmalloc_reuses_region :
    Along HeapState.next Modest (.boot 0x200000) (fillingOps ++ [.kmalloc 1]) ∧
      (fillingOps.foldl HeapState.next (.boot 0x200000)).heap.map.length + 1 = allocMapSize ∧
      Along HeapState.next Succeeds (.boot 0x200000) (fillingOps ++ [.kmalloc 1]) := by
  have hstart : ((HeapState.boot 0x200000).next (.kmalloc 1)).next (.kfree 0xFFFFFFFF80200000) =
      freedPage := by decide
  have hfree : FreePage freedPage := ⟨_, _, rfl⟩
  have hregions : ∀ r ∈ freedPage.heap.map, BlockOrRest 500000 2 512 r := by
    intro r hr
    simp only [freedPage, List.mem_cons, List.not_mem_nil, or_false] at hr
    obtain rfl | rfl := hr
    · exact .inl (.inl (by decide))
    · exact .inr (by decide)
  have hrun : ∀ {C : HeapState → HeapOp → Prop},
      Along HeapState.next C (.boot 0x200000) (fillingOps ++ [.kmalloc 1]) ↔
        C (.boot 0x200000) (.kmalloc 1) ∧
          C ((HeapState.boot 0x200000).next (.kmalloc 1)) (.kfree 0xFFFFFFFF80200000) ∧
          Along HeapState.next C freedPage (growingBlocks freedPage) ∧
          C ((growingBlocks freedPage).foldl HeapState.next freedPage) (.kmalloc 1) := by
    intro C
    rw [fillingOps, List.cons_append, List.cons_append, Along, Along, hstart, Along.append, Along,
      Along, and_true]
  have hmodest : Along HeapState.next Modest (.boot 0x200000) (fillingOps ++ [.kmalloc 1]) :=
    hrun.mpr ⟨by decide, by decide,
      modest_freeAndTake rfl (by decide) (by decide) (by decide) (by decide),
      by decide, by decide, live_growingBlocks freedPage⟩
  have hok := (kmalloc_never_panics_iff (by decide) hmodest).mpr
    (hrun.mpr ⟨fun hfull => absurd hfull (by decide), trivial, keeps_growingBlocks rfl,
      hfree.growingBlocks.keepsEntry⟩)
  refine ⟨hmodest, ?_, hok⟩
  rw [fillingOps, List.foldl_cons, List.foldl_cons, hstart]
  exact length_growingBlocks rfl hregions (hrun.mp hok).2.2.1

def largeBlocks : List HeapOp := List.replicate 512 (.kmalloc (64 * pageSize))

def smallBlocks : List HeapOp := List.replicate 511 (.kmalloc (33 * pageSize))

/-- As many blocks of 64 pages as may be live, all freed again, and then blocks of
33 pages. -/
def fragmentingOps (s : HeapState) : List HeapOp :=
  largeBlocks ++ ((largeBlocks.foldl HeapState.next s).live.map .kfree ++ smallBlocks)

/-- While the blocks of 64 pages are taken, each region is one of them or the rest of
the heap. -/
def LargeOrRest (j : Nat) (r : MappedRegion) : Prop :=
  (r.free = false ∧ r.pages = 64) ∨
    (491007 + 64 * (j : Int) ≤ r.pages ∧ r.pages ≤ maxRegionPages)

/-- While the blocks of 33 pages are taken, none of the free regions has that size. -/
def NotExact (j : Nat) (r : MappedRegion) : Prop :=
  r.free = true → r.pages = 64 ∨ r.pages = 31 ∨
    (400000 + 33 * (j : Int) ≤ r.pages ∧ r.pages ≤ maxRegionPages)

theorem LargeOrRest.split (j : Nat) (r : MappedRegion) (hr : LargeOrRest (j + 1) r)
    (hfits : r.fits 64 = true) :
    64 ≠ toSizeT r.pages ∧ LargeOrRest j (r.taken 64) ∧ LargeOrRest j (r.rest 64) := by
  rcases hr with ⟨hused, -⟩ | ⟨hlow, hhigh⟩
  · rw [MappedRegion.fits, hused] at hfits
    cases hfits
  · have hmodest := MappedRegion.Modest.of_fits hfits (by omega) hhigh
    have hpages := hmodest.toSizeT_pages
    refine ⟨by omega, Or.inl ⟨rfl, hmodest.taken_pages hfits⟩, Or.inr ?_⟩
    rw [hmodest.rest_pages hfits]
    omega

theorem NotExact.split (j : Nat) (r : MappedRegion) (hr : NotExact (j + 1) r)
    (hfits : r.fits 33 = true) :
    33 ≠ toSizeT r.pages ∧ NotExact j (r.taken 33) ∧ NotExact j (r.rest 33) := by
  have hfree : r.free = true := by
    rw [MappedRegion.fits, Bool.and_eq_true] at hfits
    exact hfits.1
  have hcases := hr hfree
  rw [maxRegionPages] at hcases
  have hmodest : r.Modest := by
    apply MappedRegion.Modest.of_fits hfits
    · omega
    · rw [maxRegionPages]
      omega
  have hsize := hmodest.size_le hfits
  have hpages := hmodest.toSizeT_pages
  refine ⟨by omega, fun hfree => Bool.noConfusion hfree, fun _ => ?_⟩
  rw [hmodest.rest_pages hfits, maxRegionPages]
  omega

section Fragmenting

variable {s s₁ s₂ : HeapState} (hs₁ : largeBlocks.foldl HeapState.next s = s₁)
  (hs₂ : (s₁.live.map HeapOp.kfree).foldl HeapState.next s₁ = s₂)

include hs₁ hs₂

theorem fragmentingOps_panics (hlength : s.heap.map.length = 1)
    (hrest : ∀ r ∈ s.heap.map, LargeOrRest 512 r) :
    ¬ Along HeapState.next Succeeds s (fragmentingOps s) := by
  rw [fragmentingOps, ← freeAndTake, along_freeAndTake hs₁ hs₂]
  rintro ⟨hlarge, -, hsmall⟩
  obtain ⟨hsizes, hcount, -⟩ := length_of_splits (by decide) LargeOrRest
    (fun j r h => h.imp_right fun h => ⟨by omega, h.2⟩) LargeOrRest.split 512
    s hrest (by rw [hlength]; decide) hlarge
  rw [← largeBlocks, hs₁] at hsizes hcount
  obtain ⟨-, -, hpages⟩ := kfree_all s₁.live s₁ rfl
  rw [hs₂] at hpages
  have hfull : s₂.heap.map.length = 513 := by
    have hsame := congrArg List.length hpages
    rw [List.length_map, List.length_map] at hsame
    omega
  have hnot : ∀ r ∈ s₂.heap.map, NotExact 511 r := by
    intro r hr _
    have hmem := List.mem_map_of_mem (f := MappedRegion.pages) hr
    rw [hpages] at hmem
    obtain ⟨r', hr', hsame⟩ := List.mem_map.mp hmem
    rw [← hsame]
    rcases hsizes r' hr' with ⟨-, h64⟩ | ⟨hlow, hhigh⟩
    · exact Or.inl h64
    · exact Or.inr (Or.inr ⟨by omega, hhigh⟩)
  obtain ⟨-, -, hend⟩ := length_of_splits (by decide) NotExact
    (fun j r h hfree => (h hfree).imp_right (Or.imp_right fun h => ⟨by omega, h.2⟩))
    NotExact.split 511 s₂ hnot (by rw [hfull]; decide) hsmall
  rw [hfull, allocMapSize] at hend
  omega

end Fragmenting

/-- Never more than 512 blocks of at most 64 pages are live, and a `kmalloc` panics:
each block of 33 pages takes an entry of its own, for the 31 pages it leaves.  Above a
kernel that fills its two gigabytes there is no room for one block. -/
theorem kmalloc_panics_fragmented :
    (Along HeapState.next Modest (.boot 0x200000) (fragmentingOps (.boot 0x200000)) ∧
      ¬ Along HeapState.next Succeeds (.boot 0x200000)
        (fragmentingOps (.boot 0x200000))) ∧
    (Along HeapState.next Modest (.boot 0x7FFFF000) [.kmalloc 1] ∧
      ¬ Along HeapState.next Succeeds (.boot 0x7FFFF000) [.kmalloc 1]) := by
  have hboot : (HeapState.boot 0x200000).heap.map =
      [⟨0xFFFFFFFF80200000, 523775, true⟩] := by decide
  have hnone : (HeapState.boot 0x7FFFF000).call (.kmalloc 1) =
      .error .outOfAddresses := by decide
  refine ⟨⟨modest_freeAndTake rfl (by decide) (by decide) (by decide) (by decide),
    fragmentingOps_panics rfl rfl ?_ ?_⟩, ⟨by decide, trivial⟩, ?_⟩
  · rw [hboot]
    rfl
  · intro r hr
    rw [hboot, List.mem_singleton] at hr
    subst hr
    exact Or.inr (by decide)
  · rintro ⟨⟨s', hok⟩, -⟩
    rw [hnone] at hok
    cases hok

end GlitchedOS
