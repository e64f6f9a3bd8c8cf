/-
`kfree` of pointers that start no live block.  Where no entry of the table starts at the
pointer, the search of `kfree` keeps its default index `0` and the first entry is marked
free, in use or not.  Any other foreign pointer, stale ones included, changes nothing.
-/
import GlitchedOS.Memory.KernelHeap

namespace GlitchedOS

open FirstFit

/-- `kfree` returns at once, or finds an entry that starts at the pointer, or marks the
first entry, which is free. -/
def Harmless (h : HeapMap) (ptr : Nat) : Prop :=
  ptr < h.kernelHeapStart ∨ (∃ r ∈ h.map, r.start = ptr) ∨
    h.map.head?.all MappedRegion.free = true

instance (h : HeapMap) (ptr : Nat) : Decidable (Harmless h ptr) :=
  inferInstanceAs (Decidable (_ ∨ _ ∨ _))

namespace KernelHeap

variable {P K total ptr : Nat} {st st' : KernelHeap} {l : List Piece}

/-- `kfree` changes neither the table nor what any address maps. -/
def Undisturbed (st : KernelHeap) (ptr : Nat) : Prop :=
  (st.kfree ptr).heap = st.heap ∧
    ∀ addr, pte (st.kfree ptr).phys st.root addr = pte st.phys st.root addr

theorem Agrees.free_unmapped {k i : Nat} {r : Piece} (h : st.Agrees P K total l)
    (hrange : HeapRange K total) (hr : l[k]? = some r) (hfree : r.free = true) (hi : i < r.len) :
    pte st.phys st.root (K + r.start * pageSize + i * pageSize) = none := by
  have hin := h.shape.shares.inside r (List.mem_of_getElem? hr)
  obtain ⟨held, hs⟩ := h.sound
  have hpte : pte st.phys st.root (K + r.start * pageSize + i * pageSize) =
      kpte st.phys P (K + r.start * pageSize + i * pageSize) :=
    pte_kernel (s := st.phys.widen) hs.linked List.mem_cons_self (hrange.pages hin hi).1
  rw [hpte, Nat.add_assoc, ← Nat.add_mul]
  by_contra hmapped
  exact h.shape.shares.not_used hr hfree ⟨Nat.le_add_right _ _, by omega⟩
    ((h.pages _ (by omega)).mp hmapped)

theorem eraseP_not_live (hptr : ¬ st.Live ptr) : st.live.eraseP (·.start = ptr) = st.live :=
  List.eraseP_of_forall_not fun b hb heq => hptr ⟨b, hb, of_decide_eq_true heq⟩

/-- Where no entry has the size of the block, no page is freed. -/
theorem kfree_no_pages {heap : HeapMap} (hptr : ¬ st.Live ptr)
    (hmap : kfreeMap st.heap ptr = (0, heap)) : st.kfree ptr = { st with heap := heap } := by
  have hrounds : (0 + pageSize - 1) / pageSize = 0 := by decide
  rw [kfree_eq, eraseP_not_live hptr, hmap]
  dsimp only
  rw [hrounds]
  rfl

/-- The last entry that starts at a pointer without a live block is free already, and
nothing is mapped there. -/
theorem Agrees.kfree_stale (h : st.Agrees P K total l) (hrange : HeapRange K total)
    (hptr : ¬ st.Live ptr) (hmatch : ∃ m ∈ st.heap.map, m.start = ptr) : st.kfree ptr = st := by
  obtain ⟨k, r, hr, rfl, hlast, hphys, hkept⟩ := h.kfree hrange hmatch
  have hfree : r.free = true := by
    by_contra huse
    exact hptr (h.known k r hr (Bool.not_eq_true _ ▸ huse) hlast)
  have hsame : l.set k r.released = l := by
    have hreleased : r.released = r := by
      rw [Piece.released, ← hfree]
    rw [hreleased, ← (List.getElem?_eq_some_iff.mp hr).2, List.set_getElem_self]
  have hheap : (st.kfree (K + r.start * pageSize)).heap = st.heap := by
    refine HeapMap.ext_map (hkept.shape.start.trans h.shape.start.symm) ?_
    rw [hkept.shape.map, hsame, h.shape.map]
  have hnone : ∀ i < r.len,
      pte st.phys st.root ((K + r.start * pageSize + i * pageSize) % 2 ^ 64) = none := by
    intro i hi
    have hin := h.shape.shares.inside r (List.mem_of_getElem? hr)
    rw [Nat.mod_eq_of_lt (hrange.pages hin hi).1.2]
    exact h.free_unmapped hrange hr hfree hi
  rw [freePages_unmapped hnone] at hphys
  rw [kfree_eq] at hphys hheap ⊢
  rw [eraseP_not_live hptr]
  exact congrArg₂ (fun s heap => KernelHeap.mk s st.root heap st.live) hphys hheap

/-- A harmless call leaves everything as it was. -/
theorem Agrees.kfree_harmless (h : st.Agrees P K total l) (hrange : HeapRange K total)
    (hptr : ¬ st.Live ptr) (hharmless : Harmless st.heap ptr) : st.kfree ptr = st := by
  by_cases hlow : ptr < st.heap.kernelHeapStart
  · exact kfree_no_pages hptr (if_pos hlow)
  by_cases hmatch : ∃ m ∈ st.heap.map, m.start = ptr
  · exact h.kfree_stale hrange hptr hmatch
  · have hnone : ∀ m ∈ st.heap.map, m.start ≠ ptr := fun m hm heq => hmatch ⟨m, hm, heq⟩
    have hhead := (hharmless.resolve_left hlow).resolve_left hmatch
    rw [kfree_no_pages hptr (kfreeMap_unmatched (Nat.not_lt.mp hlow) hnone),
      (modify_free_eq_self _).mpr hhead]

/-- Any other call makes the first entry free, which is in use. -/
theorem harmless_of_heap_eq (h : (st.kfree ptr).heap = st.heap) : Harmless st.heap ptr := by
  by_contra hharmful
  rw [Harmless, not_or, not_or] at hharmful
  obtain ⟨hlow, hnone, hhead⟩ := hharmful
  have hmap : (kfreeMap st.heap ptr).2.map = st.heap.map := congrArg HeapMap.map h
  rw [kfreeMap_unmatched (Nat.not_lt.mp hlow) fun m hm heq => hnone ⟨m, hm, heq⟩] at hmap
  exact hhead ((modify_free_eq_self _).mp hmap)

/-- After any other call `kmalloc` hands out the first entry again, and does not return:
`alloc_region` meets its pages. -/
theorem Agrees.kmalloc_after_harmful {size : Nat} {m : MappedRegion} {rest : List MappedRegion}
    (h : st.Agrees P K total l) (hrange : HeapRange K total) (hlive : ¬ st.Live ptr)
    (hptr : ¬ Harmless st.heap ptr) (hmap : st.heap.map = m :: rest)
    (hpos : 1 ≤ kmallocPages size) (hle : (kmallocPages size : Int) ≤ m.pages)
    (result : Nat × KernelHeap) : (st.kfree ptr).kmalloc size ≠ .ok result := by
  obtain ⟨ptr', st'⟩ := result
  intro hok
  rw [Harmless, not_or, not_or, hmap] at hptr
  obtain ⟨hlow, hnone, huse⟩ := hptr
  have hunmatched := kfreeMap_unmatched (Nat.not_lt.mp hlow) fun r hr heq =>
    hnone ⟨r, hmap ▸ hr, heq⟩
  rw [kfree_no_pages hlive hunmatched, hmap] at hok
  obtain ⟨q, l₁, rfl, rfl, -⟩ := List.map_eq_cons_iff.mp (h.shape.map.symm.trans hmap)
  have hmem : q ∈ q :: l₁ := List.mem_cons_self
  have hlen := h.shape.len_le hrange hmem
  have hin := h.shape.shares.inside q hmem
  have hle : kmallocPages size ≤ q.len := Int.ofNat_le.mp hle
  -- the first entry is the first that fits
  have hfits : (region K q.released).fits (kmallocPages size) = true :=
    (region_fits (r := q.released) hlen).mpr ⟨rfl, hle⟩
  obtain ⟨heap, s, -, hfind, halloc, -⟩ := kmalloc_ok hok
  obtain rfl : ptr' = K + q.start * pageSize := findAvailableVa_head rfl hfits hfind
  obtain ⟨hlo, hhi⟩ := hrange.address (by omega : q.start ≤ total)
  have hsize := kmalloc_size_le hlo hhi hok
  have hfit : q.start + kmallocPages size ≤ total := by omega
  obtain ⟨hrounds, -⟩ := hrange.regionRounds_eq rfl hfit hsize
  obtain ⟨held, hs⟩ := h.sound
  have hmapped := hs.kernelRegion List.mem_cons_self
    (fun i hi => hrange.pages hfit (hrounds ▸ hi)) (allocRegion64_widen _ _ _ _ _ _ halloc)
  rw [hrounds] at hmapped
  obtain ⟨hnone, -⟩ := hmapped.mapped _ (hrange.page (by omega)).1
    ((hrange.inPages_iff q.start _ q.start).mpr ⟨Nat.le_refl _, by omega⟩)
  refine (h.pages q.start (by omega)).mpr ⟨q, hmem, ?_, Nat.le_refl _, by omega⟩ hnone
  exact Bool.not_eq_true _ ▸ huse

/-- The calls of a run without a harmful `kfree`. -/
def Clean (st : KernelHeap) : HeapOp → Prop
  | .kmalloc _ => True
  | .kfree ptr => st.Live ptr ∨ Harmless st.heap ptr

def CleanStep (st : KernelHeap) (op : HeapOp) (st' : KernelHeap) : Prop :=
  st.Clean op ∧ st.call op = .ok st'

theorem CleanStep.agrees {op : HeapOp} (hstep : CleanStep st op st') (hrange : HeapRange K total)
    (h : st.Agrees P K total l) : ∃ l', st'.Agrees P K total l' := by
  obtain ⟨hclean, hok⟩ := hstep
  cases op with
  | kmalloc size =>
      obtain ⟨ptr, hok⟩ := call_kmalloc hok
      obtain ⟨-, -, l', -, -, -, -, -, h', -⟩ := h.kmalloc hrange hok
      exact ⟨l', h'⟩
  | kfree ptr =>
      obtain rfl := Except.ok.inj hok
      by_cases hlive : st.Live ptr
      · obtain ⟨k, r, -, -, -, -, h'⟩ := h.kfree hrange (h.exists_entry hlive)
        exact ⟨_, h'⟩
      · rw [h.kfree_harmless hrange hlive (hclean.resolve_left hlive)]
        exact ⟨l, h⟩

end KernelHeap

section Boot

variable {cr3 executableSize : Nat} {memmap : Memmap} {mem : Nat → Nat → Word} {s : PhysMem}

theorem cleanRun_agrees {calls : List HeapOp} {st : KernelHeap}
    (hboot : BootHeap cr3 memmap mem executableSize)
    (hinit : initPaging cr3 memmap mem = .ok s)
    (hrun : Run KernelHeap.CleanStep (.boot s cr3 executableSize) calls st) :
    ∃ K total l, HeapRange K total ∧ st.Agrees (frameOf (mem cr3 511)) K total l := by
  obtain ⟨K, total, l, hrange, -, -, h⟩ := hboot.agrees hinit
  obtain ⟨l', h'⟩ := hrun.invariant (fun st => ∃ l, st.Agrees (frameOf (mem cr3 511)) K total l)
    (fun _ _ _ hstep ⟨_, hst⟩ => hstep.agrees hrange hst) ⟨l, h⟩
  exact ⟨K, total, l', hrange, h'⟩

/-- In every run in which `kfree` is called for live blocks or is harmless, `kfree` of a
pointer that starts no live block leaves the table and every mapping alone if and only if
the pointer is below the heap, an entry of the table starts at it, or the first entry is
free.  Then nothing at all changes. -/
theorem foreign_kfree_undisturbed_iff {calls : List HeapOp} {st : KernelHeap} {ptr : Nat}
    (hboot : BootHeap cr3 memmap mem executableSize)
    (hinit : initPaging cr3 memmap mem = .ok s)
    (hrun : Run KernelHeap.CleanStep (.boot s cr3 executableSize) calls st)
    (hptr : ¬ st.Live ptr) :
    (st.Undisturbed ptr ↔ Harmless st.heap ptr) ∧
      (Harmless st.heap ptr → st.kfree ptr = st) := by
  obtain ⟨K, total, l, hrange, h⟩ := cleanRun_agrees hboot hinit hrun
  refine ⟨⟨fun hsame => KernelHeap.harmless_of_heap_eq hsame.1, fun hharmless => ?_⟩,
    h.kfree_harmless hrange hptr⟩
  rw [KernelHeap.Undisturbed, h.kfree_harmless hrange hptr hharmless]
  exact ⟨rfl, fun _ => rfl⟩

end Boot

theorem image_run : ∃ s st, initPaging largeRoot largeMemmap imageMem = .ok s ∧
    Run KernelHeap.CleanStep (.boot s largeRoot 4096) [.kmalloc 1] st ∧
    ¬ st.Live 0xFFFFFFFF80001008 ∧
    st.heap = ⟨0xFFFFFFFF80001000,
      [⟨0xFFFFFFFF80001000, 1, false⟩, ⟨0xFFFFFFFF80002000, 0x7FFFD, true⟩]⟩ := by
  obtain ⟨s, st, hinit, hok, hheap, hblocks⟩ := image_kmalloc
  refine ⟨s, st, hinit, .single ⟨trivial, by rw [KernelHeap.call, hok]; rfl⟩, ?_, hheap⟩
  rintro ⟨b, hb, hstart⟩
  rw [hblocks] at hb
  obtain rfl := List.mem_singleton.mp hb
  cases hstart

/-- One byte of heap and a pointer to another byte of its page. -/
theorem foreign_kfree_undisturbed_interior : ∃ s st,
    initPaging largeRoot largeMemmap imageMem = .ok s ∧
    Run KernelHeap.CleanStep (.boot s largeRoot 4096) [.kmalloc 1] st ∧
    ¬ st.Live 0xFFFFFFFF80001008 ∧
    (st.Undisturbed 0xFFFFFFFF80001008 ↔ Harmless st.heap 0xFFFFFFFF80001008) := by
  obtain ⟨s, st, hinit, hrun, hptr, -⟩ := image_run
  exact ⟨s, st, hinit, hrun, hptr,
    (foreign_kfree_undisturbed_iff imageMem_bootHeap hinit hrun hptr).1⟩

/-- The call changes the table, and after it `kmalloc` of one byte does not return. -/
theorem interior_kfree_not_undisturbed : ∃ s st,
    initPaging largeRoot largeMemmap imageMem = .ok s ∧
    Run KernelHeap.CleanStep (.boot s largeRoot 4096) [.kmalloc 1] st ∧
    ¬ st.Live 0xFFFFFFFF80001008 ∧
    (st.kfree 0xFFFFFFFF80001008).heap ≠ st.heap ∧
    ∀ result, (st.kfree 0xFFFFFFFF80001008).kmalloc 1 ≠ .ok result := by
  obtain ⟨s, st, hinit, hrun, hptr, hheap⟩ := image_run
  obtain ⟨K, total, l, hrange, h⟩ := cleanRun_agrees imageMem_bootHeap hinit hrun
  have hharmful : ¬ Harmless st.heap 0xFFFFFFFF80001008 := by
    rw [hheap]
    decide
  refine ⟨s, st, hinit, hrun, hptr, fun hsame => ?_, ?_⟩
  · exact hharmful (KernelHeap.harmless_of_heap_eq hsame)
  · exact h.kmalloc_after_harmful hrange hptr hharmful (congrArg HeapMap.map hheap)
      (by decide) (by decide)

end GlitchedOS
