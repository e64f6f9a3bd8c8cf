/-
The kernel heap as an allocator.  While only live blocks are freed, the entries of the table
share out the heap, their pages are mapped exactly where they are in use, and every live
block has the first bytes of an entry for itself.
-/
import GlitchedOS.Memory.KernelHeap

namespace GlitchedOS

open FirstFit

/-- The first address behind the heap. -/
def heapEnd : Nat := 2 ^ 64 - pageSize

def MappedRegion.Covers (r : MappedRegion) (addr : Nat) : Prop :=
  r.start ≤ addr ∧ (addr : Int) < r.start + r.pages * pageSize

/-- The entries are page-aligned and share out the heap. -/
structure HeapMap.Partitions (h : HeapMap) : Prop where
  aligned : ∀ r ∈ h.map, r.start % pageSize = 0
  inside : ∀ r ∈ h.map, h.kernelHeapStart ≤ r.start ∧ 0 ≤ r.pages ∧
    r.start + r.pages * pageSize ≤ heapEnd
  once : ∀ addr, h.kernelHeapStart ≤ addr → addr < heapEnd →
    ∃! i : Nat, ∃ r : MappedRegion, h.map[i]? = some r ∧ r.Covers addr

namespace KernelHeap

/-- The heap is an allocator: the table shares it out, what is mapped is in use, and live
blocks are in use and lie apart. -/
structure Allocates (st : KernelHeap) : Prop where
  partitions : st.heap.Partitions
  mapped : ∀ r ∈ st.heap.map, ∀ addr, r.Covers addr →
    (pte st.phys st.root addr ≠ none ↔ r.free = false)
  inUse : ∀ b ∈ st.live, ∃ r ∈ st.heap.map, r.free = false ∧ r.start = b.start ∧
    (b.size : Int) ≤ r.pages * pageSize
  starts : (st.live.map HeapBlock.start).Nodup
  apart : st.live.Pairwise fun b c =>
    b.start + b.size ≤ c.start ∨ c.start + c.size ≤ b.start

/-- The calls of a caller that asks for at least one byte and frees what it holds. -/
def Owned (st : KernelHeap) : HeapOp → Prop
  | .kmalloc size => 1 ≤ size
  | .kfree ptr => st.Live ptr

def OwnedStep (st : KernelHeap) (op : HeapOp) (st' : KernelHeap) : Prop :=
  st.Owned op ∧ st.call op = .ok st'

/-- Every live block has a piece in use for itself. -/
structure Blocks (K total : Nat) (st : KernelHeap) (l : List Piece) : Prop where
  pos : 0 < total → ∀ r ∈ l, 1 ≤ r.len
  owned : ∀ b ∈ st.live, ∃ r ∈ l, r.free = false ∧ b.start = K + r.start * pageSize ∧
    1 ≤ b.size ∧ b.size ≤ r.len * pageSize
  starts : (st.live.map HeapBlock.start).Nodup

variable {P K total size ptr : Nat} {st st' : KernelHeap} {l : List Piece}

theorem page_start_inj {x y : Nat} (h : K + x * pageSize = K + y * pageSize) : x = y := by
  rw [pageSize] at h
  omega

theorem Blocks.total_pos {b : HeapBlock} (h : Blocks K total st l) (hs : Shares total l)
    (hb : b ∈ st.live) : 0 < total := by
  obtain ⟨r, hr, -, -, hpos, hle⟩ := h.owned b hb
  have hin := hs.inside r hr
  by_contra hzero
  have hlen : r.len = 0 := by omega
  rw [hlen, Nat.zero_mul] at hle
  omega

/-- The pieces that start at a live block are the one of the block. -/
theorem Blocks.piece_eq {b : HeapBlock} {k : Nat} {r : Piece} (h : Blocks K total st l)
    (hs : Shares total l) (hb : b ∈ st.live) (hr : l[k]? = some r)
    (hstart : b.start = K + r.start * pageSize) :
    r.free = false ∧ b.size ≤ r.len * pageSize := by
  obtain ⟨q, hq, hfree, hqstart, -, hle⟩ := h.owned b hb
  obtain ⟨i, hi⟩ := List.mem_iff_getElem?.mp hq
  have hpos := h.pos (h.total_pos hs hb)
  have heq : q.start = r.start := page_start_inj (hqstart.symm.trans hstart)
  obtain rfl := hs.start_inj hi hr (hpos q hq) (hpos r (List.mem_of_getElem? hr)) heq
  obtain rfl := Option.some.inj (hi.symm.trans hr)
  exact ⟨hfree, hle⟩

theorem Blocks.kmalloc {n k : Nat} {r : Piece} {l' : List Piece} (h : Blocks K total st l)
    (hs : Shares total l) (htakes : Takes n k r l l') (hsize : 1 ≤ size)
    (hle : size ≤ n * pageSize)
    (hlive : st'.live = ⟨K + r.start * pageSize, size⟩ :: st.live) : Blocks K total st' l' := by
  have hn : 1 ≤ n := by
    by_contra hzero
    obtain rfl : n = 0 := by omega
    omega
  refine ⟨fun htotal q hq => ?_, fun b hb => ?_, ?_⟩
  · rcases htakes.mem_cases hq with rfl | ⟨rfl, hlt⟩ | hq
    · exact hn
    · simp only [Piece.rest]
      omega
    · exact h.pos htotal q hq
  · rw [hlive] at hb
    rcases List.mem_cons.mp hb with rfl | hb
    · exact ⟨_, htakes.taken_mem, rfl, rfl, hsize, hle⟩
    · obtain ⟨q, hq, hfree, hrest⟩ := h.owned b hb
      refine ⟨q, htakes.mem_of_ne hq ?_, hfree, hrest⟩
      rintro rfl
      rw [htakes.free] at hfree
      cases hfree
  · rw [hlive, List.map_cons, List.nodup_cons]
    refine ⟨fun hmem => ?_, h.starts⟩
    obtain ⟨b, hb, hstart⟩ := List.mem_map.mp hmem
    have huse := (h.piece_eq hs hb htakes.get hstart).1
    rw [htakes.free] at huse
    cases huse

theorem Blocks.kfree {k : Nat} {r : Piece} (h : Blocks K total st l) (hr : l[k]? = some r)
    (hptr : ptr = K + r.start * pageSize) :
    Blocks K total (st.kfree ptr) (l.set k r.released) := by
  have hlive : (st.kfree ptr).live = st.live.eraseP (·.start = ptr) := rfl
  have hstarts : (st.kfree ptr).live.map HeapBlock.start =
      (st.live.map HeapBlock.start).erase ptr := map_eraseP_start st.live ptr
  refine ⟨fun htotal q hq => ?_, fun b hb => ?_, ?_⟩
  · rcases List.mem_or_eq_of_mem_set hq with hq | rfl
    · exact h.pos htotal q hq
    · exact h.pos htotal r (List.mem_of_getElem? hr)
  · have hne : b.start ≠ ptr := by
      rintro rfl
      have hmem := List.mem_map_of_mem (f := HeapBlock.start) hb
      rw [hstarts] at hmem
      exact h.starts.not_mem_erase hmem
    obtain ⟨q, hq, hfree, hstart, hrest⟩ := h.owned b (List.mem_of_mem_eraseP (hlive ▸ hb))
    refine ⟨q, mem_released hr hq ?_, hfree, hstart, hrest⟩
    rintro rfl
    exact hne (hstart.trans hptr.symm)
  · rw [hstarts]
    exact h.starts.erase ptr

theorem OwnedStep.blocks {op : HeapOp} (hstep : OwnedStep st op st') (hrange : HeapRange K total)
    (h : st.Agrees P K total l) (hblocks : Blocks K total st l) :
    ∃ l', st'.Agrees P K total l' ∧ Blocks K total st' l' := by
  obtain ⟨howned, hok⟩ := hstep
  cases op with
  | kmalloc size =>
      obtain ⟨ptr, hok⟩ := call_kmalloc hok
      obtain ⟨k, r, l', htakes, rfl, hle, -, hlive, h', -⟩ := h.kmalloc hrange hok
      exact ⟨l', h', hblocks.kmalloc h.shape.shares htakes howned hle hlive⟩
  | kfree ptr =>
      obtain rfl := Except.ok.inj hok
      obtain ⟨k, r, hr, hptr, -, -, h'⟩ := h.kfree hrange (h.exists_entry howned)
      exact ⟨_, h', hblocks.kfree hr hptr⟩

theorem region_covers {r : Piece} {addr : Nat} :
    (region K r).Covers addr ↔ K ≤ addr ∧ r.Has ((addr - K) / pageSize) := by
  simp only [MappedRegion.Covers, region, Piece.Has, pageSize]
  omega

theorem Agrees.partitions (h : st.Agrees P K total l) (hrange : HeapRange K total)
    (hend : K + total * pageSize = heapEnd) : st.heap.Partitions := by
  have hget : ∀ {i : Nat} {m : MappedRegion}, st.heap.map[i]? = some m →
      ∃ r, l[i]? = some r ∧ region K r = m := by
    intro i m hm
    rw [h.shape.map, List.getElem?_map, Option.map_eq_some_iff] at hm
    exact hm
  refine ⟨fun m hm => ?_, fun m hm => ?_, fun addr hlo hhi => ?_⟩
  · obtain ⟨i, hi⟩ := List.mem_iff_getElem?.mp hm
    obtain ⟨r, -, rfl⟩ := hget hi
    have haligned := hrange.aligned
    rw [region_start]
    rw [pageSize] at *
    omega
  · obtain ⟨i, hi⟩ := List.mem_iff_getElem?.mp hm
    obtain ⟨r, hr, rfl⟩ := hget hi
    have hin := h.shape.shares.inside r (List.mem_of_getElem? hr)
    rw [h.shape.start, ← hend, region_start, region_pages]
    rw [pageSize] at *
    omega
  · rw [h.shape.start] at hlo
    have hunit : (addr - K) / pageSize < total := by
      rw [← hend] at hhi
      rw [pageSize] at *
      omega
    obtain ⟨r, hr, hhas⟩ := h.shape.shares.cover _ hunit
    obtain ⟨i, hi⟩ := List.mem_iff_getElem?.mp hr
    refine ⟨i, ⟨region K r, ?_, region_covers.mpr ⟨hlo, hhas⟩⟩, ?_⟩
    · rw [h.shape.map, List.getElem?_map, hi, Option.map_some]
    · rintro j ⟨m, hj, hcovers⟩
      obtain ⟨q, hq, rfl⟩ := hget hj
      exact h.shape.shares.unique hq hi (region_covers.mp hcovers).2 hhas

theorem Agrees.mapped_iff {r : Piece} {addr : Nat} (h : st.Agrees P K total l)
    (hrange : HeapRange K total) (hr : r ∈ l) (hcovers : (region K r).Covers addr) :
    pte st.phys st.root addr ≠ none ↔ r.free = false := by
  obtain ⟨hlo, hhas⟩ := region_covers.mp hcovers
  obtain ⟨k, hk⟩ := List.mem_iff_getElem?.mp hr
  have hunit := h.shape.shares.lt hk hhas
  have hkernel : KernelPage addr := hrange.kernelPage hlo (by rw [pageSize] at *; omega)
  have hpage : addr / pageSize = (K + (addr - K) / pageSize * pageSize) / pageSize := by
    have haligned := hrange.aligned
    rw [pageSize] at *
    omega
  obtain ⟨held, hs⟩ := h.sound
  have hpte : pte st.phys st.root addr = kpte st.phys P (K + (addr - K) / pageSize * pageSize) :=
    (pte_kernel (s := st.phys.widen) hs.linked List.mem_cons_self hkernel.1).trans
      (kpte_congr hkernel.1 (hrange.page hunit).1 hpage)
  rw [hpte, h.pages _ hunit]
  constructor
  · intro hused
    by_contra hfree
    exact h.shape.shares.not_used hk (Bool.not_eq_false _ ▸ hfree) hhas hused
  · exact fun huse => ⟨r, hr, huse, hhas⟩

theorem Blocks.allocates (hblocks : Blocks K total st l) (h : st.Agrees P K total l)
    (hrange : HeapRange K total) (hend : K + total * pageSize = heapEnd) : st.Allocates := by
  refine ⟨h.partitions hrange hend, fun m hm addr hcovers => ?_, fun b hb => ?_,
    hblocks.starts, ?_⟩
  · rw [h.shape.map] at hm
    obtain ⟨r, hr, rfl⟩ := List.mem_map.mp hm
    exact h.mapped_iff hrange hr hcovers
  · obtain ⟨r, hr, hfree, hstart, -, hle⟩ := hblocks.owned b hb
    refine ⟨region K r, h.shape.map ▸ List.mem_map_of_mem hr, hfree, hstart.symm, ?_⟩
    rw [region_pages]
    exact_mod_cast hle
  · refine (List.pairwise_map.mp hblocks.starts).imp_of_mem fun {b c} hb hc hne => ?_
    obtain ⟨r, hr, -, hstart, hpos, hle⟩ := hblocks.owned b hb
    obtain ⟨q, hq, -, hstart', hpos', hle'⟩ := hblocks.owned c hc
    obtain ⟨i, hi⟩ := List.mem_iff_getElem?.mp hr
    obtain ⟨j, hj⟩ := List.mem_iff_getElem?.mp hq
    have hlens := hblocks.pos (hblocks.total_pos h.shape.shares hb)
    have hij : i ≠ j := by
      rintro rfl
      obtain rfl := Option.some.inj (hi.symm.trans hj)
      exact hne (hstart.trans hstart'.symm)
    have hapart := h.shape.shares.apart hi hj hij (hlens r hr) (hlens q hq)
    rw [hstart, hstart']
    rw [pageSize] at *
    omega

end KernelHeap

section Boot

variable {cr3 executableSize : Nat} {memmap : Memmap} {mem : Nat → Nat → Word} {s : PhysMem}

/-- In every run of callers that free what they hold the heap is an allocator; then a search
never leads `alloc_region` to a mapped page, and what `kmalloc` returns reads as zero. -/
theorem kernel_heap_allocates {calls : List HeapOp} {st : KernelHeap}
    (hboot : BootHeap cr3 memmap mem executableSize)
    (hinit : initPaging cr3 memmap mem = .ok s)
    (hrun : Run KernelHeap.OwnedStep (.boot s cr3 executableSize) calls st) :
    st.heap.kernelHeapStart = (initMman executableSize).kernelHeapStart ∧ st.Allocates ∧
    (∀ size ptr heap, size < 2 ^ 64 →
      findAvailableVa st.heap (kmallocPages size) = .ok (ptr, heap) →
      allocRegion64 st.phys st.root ptr size kmallocFlags ≠ .error .alreadyMapped) ∧
    ∀ size ptr st', st.kmalloc size = .ok (ptr, st') →
      ∀ j < size, virtByte st'.phys st'.root (ptr + j) = some 0 := by
  obtain ⟨K, total, l, hrange, hend, hpos, h⟩ := hboot.agrees hinit
  have hblocks : KernelHeap.Blocks K total (.boot s cr3 executableSize) l :=
    ⟨hpos, nofun, List.nodup_nil⟩
  obtain ⟨l', h', hblocks'⟩ := hrun.invariant
    (fun st => ∃ l, st.Agrees (frameOf (mem cr3 511)) K total l ∧ KernelHeap.Blocks K total st l)
    (fun _ _ _ hstep ⟨_, hst, hstBlocks⟩ => hstep.blocks hrange hst hstBlocks) ⟨l, h, hblocks⟩
  refine ⟨h'.shape.start.trans h.shape.start.symm, hblocks'.allocates h' hrange hend,
    fun size ptr heap hsize hfind => ?_, fun size ptr st' hok => ?_⟩
  · exact h'.never_alreadyMapped hrange hsize hfind
  · obtain ⟨-, -, -, -, -, -, -, -, -, hbytes⟩ := h'.kmalloc hrange hok
    exact hbytes

/-- A block is taken and freed. -/
theorem kernel_heap_allocates_image : ∃ s st,
    initPaging largeRoot largeMemmap imageMem = .ok s ∧
    Run KernelHeap.OwnedStep (.boot s largeRoot 4096)
      [.kmalloc 1, .kfree 0xFFFFFFFF80001000] st ∧ st.Allocates := by
  obtain ⟨s, st, hinit, hok, -, hlive⟩ := image_kmalloc
  have hrun : Run KernelHeap.OwnedStep (.boot s largeRoot 4096)
      [.kmalloc 1, .kfree 0xFFFFFFFF80001000] (st.kfree 0xFFFFFFFF80001000) :=
    .cons ⟨Nat.le_refl 1, by rw [KernelHeap.call, hok]; rfl⟩
      (.single ⟨⟨_, hlive ▸ List.mem_cons_self, rfl⟩, rfl⟩)
  exact ⟨s, _, hinit, hrun, (kernel_heap_allocates imageMem_bootHeap hinit hrun).2.1⟩

end Boot

end GlitchedOS
