/-
`kmalloc` and `kfree` on the table of regions, the page tables and the bytes together,
from boot on.  While only live blocks are freed, or pointers that leave the table as it is,
the pages of the heap that are mapped are those of the entries in use.
-/
import GlitchedOS.Memory.HeapRegions
import GlitchedOS.Paging.KernelPages
import GlitchedOS.Paging.SearchHint

namespace GlitchedOS

open FirstFit

/-- A block handed out: its first address and the bytes asked for. -/
structure HeapBlock where
  start : Nat
  size : Nat
deriving Repr, DecidableEq

/-- Physical memory, the current page tables, the table of `mman.c` and the blocks handed
out and not freed. -/
structure KernelHeap where
  phys : PhysMem
  root : Nat
  heap : HeapMap
  live : List HeapBlock

/-- Why `kmalloc` does not return: a panic of its search or of `alloc_region`, or a fault
of its `memset`. -/
inductive KmallocStop where
  | heap (reason : HeapPanic)
  | paging (reason : Panic)
  | fault
deriving Repr, DecidableEq

/-- `FLAGS_PRESENT | FLAGS_RW` -/
def kmallocFlags : Flags := ⟨flagsPresent ||| flagsRw, by decide⟩

namespace KernelHeap

def kmalloc (st : KernelHeap) (size : Nat) : Except KmallocStop (Nat × KernelHeap) :=
  match findAvailableVa st.heap (kmallocPages size) with
  | .error reason => .error (.heap reason)
  | .ok (ptr, heap) =>
      match allocRegion64 st.phys st.root ptr size kmallocFlags with
      | .error reason => .error (.paging reason)
      | .ok s =>
          match storeBytes st.root ptr (fun _ => 0) size s with
          | none => .error .fault
          | some s => .ok (ptr, ⟨s, st.root, heap, ⟨ptr, size⟩ :: st.live⟩)

def kfree (st : KernelHeap) (ptr : Nat) : KernelHeap :=
  let (size, heap) := kfreeMap st.heap ptr
  ⟨freePages st.root ptr ((size + pageSize - 1) / pageSize) st.phys, st.root, heap,
    st.live.eraseP (·.start = ptr)⟩

def call (st : KernelHeap) : HeapOp → Except KmallocStop KernelHeap
  | .kmalloc size => do
      let (_, st) ← st.kmalloc size
      .ok st
  | .kfree ptr => .ok (st.kfree ptr)

def Live (st : KernelHeap) (ptr : Nat) : Prop := ∃ b ∈ st.live, b.start = ptr

/-- The heap when `init_mman` returns. -/
def boot (s : PhysMem) (root executableSize : Nat) : KernelHeap :=
  ⟨s, root, initMman executableSize, []⟩

variable {st st' : KernelHeap} {size ptr : Nat}

theorem kmalloc_ok (h : st.kmalloc size = .ok (ptr, st')) :
    ∃ heap s s', findAvailableVa st.heap (kmallocPages size) = .ok (ptr, heap) ∧
      allocRegion64 st.phys st.root ptr size kmallocFlags = .ok s ∧
      storeBytes st.root ptr (fun _ => 0) size s = some s' ∧
      st' = ⟨s', st.root, heap, ⟨ptr, size⟩ :: st.live⟩ := by
  rw [kmalloc] at h
  split at h
  · cases h
  rename_i ptr' heap hfind
  split at h
  · cases h
  rename_i s halloc
  split at h
  · cases h
  rename_i s' hstore
  obtain ⟨rfl, rfl⟩ := Prod.mk.inj (Except.ok.inj h)
  exact ⟨heap, s, s', hfind, halloc, hstore, rfl⟩

theorem call_kmalloc (h : st.call (.kmalloc size) = .ok st') :
    ∃ ptr, st.kmalloc size = .ok (ptr, st') := by
  rw [call] at h
  cases hk : st.kmalloc size with
  | error reason =>
      rw [hk] at h
      cases h
  | ok r =>
      rw [hk] at h
      obtain rfl := Except.ok.inj h
      exact ⟨r.1, rfl⟩

theorem map_eraseP_start (live : List HeapBlock) (ptr : Nat) :
    (live.eraseP (·.start = ptr)).map HeapBlock.start =
      (live.map HeapBlock.start).erase ptr := by
  have hsame : ((ptr == ·) ∘ HeapBlock.start) = fun b => decide (b.start = ptr) := by
    funext b
    exact decide_eq_decide.mpr eq_comm
  rw [List.erase_eq_eraseP, List.eraseP_map, hsame]

end KernelHeap

namespace HeapRange

variable {K total : Nat}

theorem kernelPage (h : HeapRange K total) {a : Nat} (hlo : K ≤ a)
    (hhi : a < K + total * pageSize) : KernelPage a := by
  obtain ⟨-, habove, hfits⟩ := h
  rw [pageSize] at *
  refine ⟨⟨by omega, by omega⟩, ?_⟩
  rw [imageBase, pageSize]
  omega

theorem page (h : HeapRange K total) {x : Nat} (hx : x < total) :
    KernelPage (K + x * pageSize) := by
  refine h.kernelPage (Nat.le_add_right _ _) ?_
  rw [pageSize]
  omega

theorem pages (h : HeapRange K total) {x n i : Nat} (hin : x + n ≤ total) (hi : i < n) :
    KernelPage (K + x * pageSize + i * pageSize) := by
  rw [Nat.add_assoc, ← Nat.add_mul]
  exact h.page (by omega)

theorem address (h : HeapRange K total) {x : Nat} (hx : x ≤ total) :
    2 ^ 64 - 2 ^ 39 ≤ K + x * pageSize ∧ K + x * pageSize < 2 ^ 64 := by
  obtain ⟨-, habove, hfits⟩ := h
  rw [pageSize] at *
  omega

/-- Which pages of the heap lie in a run of pages of the heap. -/
theorem inPages_iff (h : HeapRange K total) (x n y : Nat) :
    InPages (K + x * pageSize) n (K + y * pageSize) ↔ x ≤ y ∧ y < x + n := by
  have haligned := h.aligned
  rw [InPages, pageSize] at *
  omega

theorem block (h : HeapRange K total) {x n j : Nat} (hin : x + n ≤ total)
    (hj : j < n * pageSize) : KernelPage (K + x * pageSize + j) ∧
      InPages (K + x * pageSize) n (K + x * pageSize + j) := by
  refine ⟨h.kernelPage ?_ ?_, ?_⟩
  · rw [Nat.add_assoc]
    exact Nat.le_add_right _ _
  · rw [pageSize] at *
    omega
  · have haligned := h.aligned
    rw [InPages]
    rw [pageSize] at *
    omega

/-- For a block of the heap `alloc_region` makes one round a page. -/
theorem regionRounds_eq (h : HeapRange K total) {x n size : Nat} (hn : n = kmallocPages size)
    (hin : x + n ≤ total) (hsize : size ≤ 2 ^ 64 - pageSize) :
    regionRounds (K + x * pageSize) size = n ∧ size ≤ n * pageSize ∧
      n * pageSize < size + pageSize := by
  obtain ⟨haligned, -, hfits⟩ := h
  have hpages : n = (size + pageSize - 1) / pageSize := by
    rw [hn, kmallocPages, pageAlign64, Nat.mod_eq_of_lt (by rw [pageSize] at *; omega),
      Nat.mul_div_cancel _ (by decide)]
  rw [GlitchedOS.regionRounds_eq (by rw [pageSize] at *; omega), pageRounds, pageAlign]
  rw [pageSize] at *
  omega

/-- The sizes that wrap when they are aligned make no round. -/
theorem regionRounds_wrapped (h : HeapRange K total) {x size : Nat} (hx : x ≤ total)
    (hlo : 2 ^ 64 - pageSize < size) (hhi : size < 2 ^ 64) :
    regionRounds (K + x * pageSize) size = 0 := by
  obtain ⟨haligned, habove, hfits⟩ := h
  have hwrap : (K + x * pageSize + size) % 2 ^ 64 = K + x * pageSize + size - 2 ^ 64 := by
    rw [pageSize] at *
    omega
  rw [regionRounds, hwrap, pageRounds, pageAlign64]
  rw [pageSize] at *
  omega

end HeapRange

/-- The table cuts the heap into the pieces `l`; live blocks start where pieces do, and the
pages of the pieces in use are the ones that are mapped. -/
structure KernelHeap.Agrees (P K total : Nat) (st : KernelHeap) (l : List Piece) : Prop where
  sound : ∃ held, Sound P held [(4, st.root)] st.phys.widen
  shape : HeapShape K total st.heap l
  listed : ∀ b ∈ st.live, ∃ r ∈ l, b.start = K + r.start * pageSize
  known : Known (fun x => st.Live (K + x * pageSize)) l
  pages : ∀ x < total, kpte st.phys P (K + x * pageSize) ≠ none ↔ Used l x

namespace KernelHeap

variable {P K total n ptr size : Nat} {st st' : KernelHeap} {l : List Piece} {heap : HeapMap}

theorem Agrees.find (h : st.Agrees P K total l) (hrange : HeapRange K total)
    (hfind : findAvailableVa st.heap n = .ok (ptr, heap)) :
    ∃ k r l', Takes n k r l l' ∧ ptr = K + r.start * pageSize ∧ r.start + n ≤ total ∧
      HeapShape K total heap l' ∧ ∀ i < n, kpte st.phys P (ptr + i * pageSize) = none := by
  obtain ⟨k, r, l', htakes, rfl, hshape⟩ := h.shape.findAvailableVa hrange hfind
  have hin := h.shape.shares.inside r htakes.mem
  have hle := htakes.le
  refine ⟨k, r, l', htakes, rfl, by omega, hshape, fun i hi => ?_⟩
  rw [Nat.add_assoc, ← Nat.add_mul]
  by_contra hmapped
  exact htakes.not_used h.shape.shares (Nat.le_add_right _ _) (by omega)
    ((h.pages _ (by omega)).mp hmapped)

/-- `alloc_region` finds no page of the block mapped. -/
theorem Agrees.never_alreadyMapped (h : st.Agrees P K total l) (hrange : HeapRange K total)
    (hsize : size < 2 ^ 64)
    (hfind : findAvailableVa st.heap (kmallocPages size) = .ok (ptr, heap)) :
    allocRegion64 st.phys st.root ptr size kmallocFlags ≠ .error .alreadyMapped := by
  obtain ⟨held, hs⟩ := h.sound
  obtain ⟨k, r, l', -, rfl, hin, -, hnone⟩ := h.find hrange hfind
  intro herror
  by_cases hle : size ≤ 2 ^ 64 - pageSize
  · obtain ⟨hrounds, -⟩ := hrange.regionRounds_eq rfl hin hle
    obtain ⟨i, hi, hmapped⟩ := hs.kernelRegion_alreadyMapped List.mem_cons_self
      (fun i hi => hrange.pages hin (hrounds ▸ hi)) herror
    exact hmapped (hnone i (hrounds ▸ hi))
  · have hrounds := hrange.regionRounds_wrapped (x := r.start) (by omega) (Nat.not_le.mp hle) hsize
    rw [allocRegion64, hrounds] at herror
    cases herror

/-- A size that wraps when it is aligned faults in `memset`. -/
theorem store_fault (s : PhysMem) (root : Nat) (hlo : 2 ^ 64 - 2 ^ 39 ≤ ptr) (hhi : ptr < 2 ^ 64)
    (hsize : 2 ^ 64 - pageSize < size) : storeBytes root ptr (fun _ => 0) size s = none := by
  rw [pageSize] at hsize
  have haddr : (ptr + (2 ^ 64 - ptr + lowerHalf)) % 2 ^ 64 = lowerHalf := by
    rw [lowerHalf]
    omega
  refine storeBytes_fault (k := 2 ^ 64 - ptr + lowerHalf) _ ?_ s ?_
  · rw [haddr]
    decide
  · rw [lowerHalf]
    omega

theorem Agrees.store {s : PhysMem} {k : Nat} {r : Piece} {l' : List Piece}
    (h : st.Agrees P K total l) (hrange : HeapRange K total)
    (htakes : Takes (kmallocPages size) k r l l') (hin : r.start + kmallocPages size ≤ total)
    (hsize : size ≤ 2 ^ 64 - pageSize)
    (halloc : allocRegion64 st.phys st.root (K + r.start * pageSize) size kmallocFlags = .ok s) :
    ∃ s', storeBytes st.root (K + r.start * pageSize) (fun _ => 0) size s = some s' ∧
      (∃ held, Sound P held [(4, st.root)] s'.widen) ∧
      (∀ x < total, kpte s' P (K + x * pageSize) ≠ none ↔ Used l' x) ∧
      ∀ j < size, virtByte s' st.root (K + r.start * pageSize + j) = some 0 := by
  obtain ⟨held, hs⟩ := h.sound
  have hroot : (4, st.root) ∈ [(4, st.root)] := List.mem_cons_self
  obtain ⟨hrounds, hle, -⟩ := hrange.regionRounds_eq rfl hin hsize
  have hwide := allocRegion64_widen _ _ _ _ _ _ halloc
  have hkernel : ∀ i < regionRounds (K + r.start * pageSize) size,
      KernelPage (K + r.start * pageSize + i * pageSize) := fun i hi =>
    hrange.pages hin (hrounds ▸ hi)
  have hs₁ := hs.allocRegion64 hroot (fun i hi => Or.inr (hkernel i hi)) hwide
  have hmapped := hs.kernelRegion hroot hkernel hwide
  rw [hrounds] at hmapped
  have hfits := hrange.fits
  have hwrap : K + r.start * pageSize + size ≤ 2 ^ 64 := by
    rw [pageSize] at *
    omega
  obtain ⟨s', hstore, hs', hpte, hbytes⟩ := hs₁.storeRegion hroot hmapped (fun _ => 0)
    hwrap fun j hj => by
      obtain ⟨hpage, hin'⟩ := hrange.block hin (Nat.lt_of_lt_of_le hj hle)
      exact ⟨hpage.1, hin'⟩
  refine ⟨s', hstore, ⟨held, hs'⟩, fun x hx => ?_, hbytes⟩
  have hpage := hrange.page hx
  rw [hpte, htakes.used_iff, ← hrange.inPages_iff]
  by_cases hx' : InPages (K + r.start * pageSize) (kmallocPages size) (K + x * pageSize)
  · obtain ⟨-, e, he, -⟩ := hmapped.mapped _ hpage.1 hx'
    have he : kpte s P (K + x * pageSize) = some e := he
    rw [he]
    exact iff_of_true (Option.some_ne_none _) (Or.inr hx')
  · have hother : kpte s P (K + x * pageSize) = kpte st.phys P (K + x * pageSize) :=
      hmapped.other _ hpage.1 hx'
    rw [hother, h.pages x hx, or_iff_left hx']

/-- The blocks of `kmalloc` are smaller than the address space. -/
theorem kmalloc_size_le (hlo : 2 ^ 64 - 2 ^ 39 ≤ ptr) (hhi : ptr < 2 ^ 64)
    (hok : st.kmalloc size = .ok (ptr, st')) : size ≤ 2 ^ 64 - pageSize := by
  obtain ⟨-, s, s', -, -, hstore, -⟩ := kmalloc_ok hok
  by_contra hlarge
  rw [store_fault s st.root hlo hhi (Nat.not_le.mp hlarge)] at hstore
  cases hstore

/-- A call of `kmalloc` that returns. -/
theorem Agrees.kmalloc (h : st.Agrees P K total l) (hrange : HeapRange K total)
    (hok : st.kmalloc size = .ok (ptr, st')) :
    ∃ k r l', Takes (kmallocPages size) k r l l' ∧ ptr = K + r.start * pageSize ∧
      size ≤ kmallocPages size * pageSize ∧ kmallocPages size * pageSize < size + pageSize ∧
      st'.live = ⟨ptr, size⟩ :: st.live ∧ st'.Agrees P K total l' ∧
      ∀ j < size, virtByte st'.phys st'.root (ptr + j) = some 0 := by
  obtain ⟨heap, s, s', hfind, halloc, hstore, rfl⟩ := kmalloc_ok hok
  obtain ⟨k, r, l', htakes, rfl, hin, hshape, -⟩ := h.find hrange hfind
  obtain ⟨hlo, hhi⟩ := hrange.address (by omega : r.start ≤ total)
  have hsize := kmalloc_size_le hlo hhi hok
  obtain ⟨-, hle, hlt⟩ := hrange.regionRounds_eq rfl hin hsize
  obtain ⟨s₁, hstore₁, hsound, hused, hbytes⟩ :=
    h.store hrange htakes hin hsize halloc
  obtain rfl := Option.some.inj (hstore.symm.trans hstore₁)
  refine ⟨k, r, l', htakes, rfl, hle, hlt, rfl, ⟨hsound, hshape, ?_, ?_, hused⟩, hbytes⟩
  · intro b hb
    rcases List.mem_cons.mp hb with rfl | hb
    · exact ⟨_, htakes.taken_mem, rfl⟩
    · obtain ⟨q, hq, hstart⟩ := h.listed b hb
      obtain ⟨q', hq', hsame⟩ := htakes.exists_start hq
      exact ⟨q', hq', by rw [hsame, hstart]⟩
  · refine (htakes.known h.known).mono fun x hx => ?_
    rcases hx with rfl | ⟨b, hb, hstart⟩
    · exact ⟨_, List.mem_cons_self, rfl⟩
    · exact ⟨b, List.mem_cons_of_mem _ hb, hstart⟩

/-- `kmalloc` stops for want of addresses, of entries or of frames. -/
theorem Agrees.kmalloc_error {stop : KmallocStop} (h : st.Agrees P K total l)
    (hrange : HeapRange K total) (hsize : size ≤ 2 ^ 64 - pageSize)
    (herror : st.kmalloc size = .error stop) :
    (∃ reason, stop = .heap reason ∧
        findAvailableVa st.heap (kmallocPages size) = .error reason) ∨
      ∃ ptr heap reason, stop = .paging reason ∧ reason ≠ .alreadyMapped ∧
        findAvailableVa st.heap (kmallocPages size) = .ok (ptr, heap) ∧
        allocRegion64 st.phys st.root ptr size kmallocFlags = .error reason := by
  rw [KernelHeap.kmalloc] at herror
  split at herror
  · rename_i reason hfind
    cases herror
    exact Or.inl ⟨reason, rfl, hfind⟩
  rename_i ptr heap hfind
  split at herror
  · rename_i reason halloc
    cases herror
    refine Or.inr ⟨ptr, heap, reason, rfl, ?_, hfind, halloc⟩
    rintro rfl
    exact h.never_alreadyMapped hrange (by rw [pageSize] at hsize; omega) hfind halloc
  rename_i s halloc
  obtain ⟨k, r, l', htakes, rfl, hin, -⟩ := h.find hrange hfind
  obtain ⟨s', hstore, -⟩ := h.store hrange htakes hin hsize halloc
  rw [hstore] at herror
  cases herror

/-- With four frames to spare for each page `kmalloc` returns what its search finds. -/
theorem Agrees.kmalloc_roomy {k : Nat} (h : st.Agrees P K total l) (hrange : HeapRange K total)
    (hsize : size ≤ 2 ^ 64 - pageSize) (hroomy : Roomy st.phys k)
    (hk : k + 4 * kmallocPages size ≤ st.phys.usablePageCount)
    (hfind : findAvailableVa st.heap (kmallocPages size) = .ok (ptr, heap)) :
    ∃ s, st.kmalloc size = .ok (ptr, ⟨s, st.root, heap, ⟨ptr, size⟩ :: st.live⟩) := by
  cases hresult : st.kmalloc size with
  | ok result =>
      obtain ⟨ptr', st'⟩ := result
      obtain ⟨heap', s, s', hfind', -, -, rfl⟩ := kmalloc_ok hresult
      obtain ⟨rfl, rfl⟩ := Prod.mk.inj (Except.ok.inj (hfind.symm.trans hfind'))
      exact ⟨s', rfl⟩
  | error stop =>
      rcases h.kmalloc_error hrange hsize hresult with
        ⟨reason, -, hnone⟩ | ⟨ptr', heap', reason, -, hnot, hfind', halloc⟩
      · rw [hfind] at hnone
        cases hnone
      obtain ⟨rfl, rfl⟩ := Prod.mk.inj (Except.ok.inj (hfind.symm.trans hfind'))
      obtain ⟨-, r, -, -, rfl, hin, -⟩ := h.find hrange hfind
      obtain ⟨hrounds, -⟩ := hrange.regionRounds_eq rfl hin hsize
      rw [allocRegion64, hrounds] at halloc
      rcases regionRounds_roomy st.root (K + r.start * pageSize) kmallocFlags hroomy hk with
        hmapped | ⟨c, s, hok, -⟩
      · rw [hmapped] at halloc
        cases halloc
        exact absurd rfl hnot
      · rw [hok] at halloc
        cases halloc

theorem kfree_eq (st : KernelHeap) (ptr : Nat) : st.kfree ptr =
    ⟨freePages st.root ptr (((kfreeMap st.heap ptr).1 + pageSize - 1) / pageSize) st.phys,
      st.root, (kfreeMap st.heap ptr).2, st.live.eraseP (·.start = ptr)⟩ := rfl

theorem Agrees.exists_entry (h : st.Agrees P K total l) (hptr : st.Live ptr) :
    ∃ m ∈ st.heap.map, m.start = ptr := by
  obtain ⟨b, hb, rfl⟩ := hptr
  obtain ⟨r, hr, hstart⟩ := h.listed b hb
  exact ⟨region K r, h.shape.map ▸ List.mem_map_of_mem hr, hstart.symm⟩

/-- The pages of an entry that starts at the pointer are unmapped. -/
theorem Agrees.kfree (h : st.Agrees P K total l) (hrange : HeapRange K total)
    (hptr : ∃ m ∈ st.heap.map, m.start = ptr) :
    ∃ k r, l[k]? = some r ∧ ptr = K + r.start * pageSize ∧
      (∀ (j : Nat) (q : Piece), k < j → l[j]? = some q → q.start ≠ r.start) ∧
      (st.kfree ptr).phys = freePages st.root ptr r.len st.phys ∧
      (st.kfree ptr).Agrees P K total (l.set k r.released) := by
  obtain ⟨k, r, hr, rfl, hlast, hbytes, hshape⟩ := h.shape.kfreeMap hrange hptr
  have hin := h.shape.shares.inside r (List.mem_of_getElem? hr)
  have hrounds : ((kfreeMap st.heap (K + r.start * pageSize)).1 + pageSize - 1) / pageSize =
      r.len := by
    rw [hbytes, pageSize]
    omega
  obtain ⟨held, hs⟩ := h.sound
  obtain ⟨hs', hpte⟩ := hs.freePages List.mem_cons_self fun i hi => hrange.pages hin hi
  rw [freePages_widen] at hs' hpte
  refine ⟨k, r, hr, rfl, hlast, by rw [kfree_eq, hrounds], ?_⟩
  rw [kfree_eq, hrounds]
  refine ⟨⟨held, hs'⟩, hshape, fun b hb => ?_, ?_, fun x hx => ?_⟩
  · obtain ⟨q, hq, hstart⟩ := h.listed b (List.mem_of_mem_eraseP hb)
    obtain ⟨q', hq', hsame⟩ := exists_start_released hr hq
    exact ⟨q', hq', by rw [hsame, hstart]⟩
  · refine (known_released hr h.known hlast).mono fun x hx => ?_
    obtain ⟨⟨b, hb, hstart⟩, hne⟩ := hx
    refine ⟨b, (List.mem_eraseP_of_neg ?_).mpr hb, hstart⟩
    rw [decide_eq_true_eq, hstart, pageSize]
    omega
  · have hpage := hrange.page hx
    have hpte : kpte (freePages st.root (K + r.start * pageSize) r.len st.phys) P
        (K + x * pageSize) = _ := hpte _ hpage.1
    rw [hpte, used_released_iff hr h.shape.shares, ← h.pages x hx, Piece.Has,
      ← hrange.inPages_iff]
    split
    · rename_i hin'
      exact iff_of_false (fun hne => hne rfl) fun hx' => hx'.2 hin'
    · rename_i hout
      exact (and_iff_left hout).symm

end KernelHeap

/-- What the boot protocol promises of the heap: the kernel image ends before the last page,
and nothing is mapped from `kernel_heap_start` on. -/
structure BootHeap (cr3 : Nat) (memmap : Memmap) (mem : Nat → Nat → Word)
    (executableSize : Nat) : Prop extends BootKernel cr3 memmap mem where
  size_le : executableSize ≤ 0x7FFFF000
  unmapped : ∀ addr, KernelAddr addr → (initMman executableSize).kernelHeapStart ≤ addr →
    Radix.leafWord pageFormat mem (kpath addr) 3 (frameOf (mem cr3 511)) = none

section Boot

variable {cr3 executableSize : Nat} {memmap : Memmap} {mem : Nat → Nat → Word} {s : PhysMem}

theorem BootHeap.agrees (hboot : BootHeap cr3 memmap mem executableSize)
    (hinit : initPaging cr3 memmap mem = .ok s) :
    ∃ K total l, HeapRange K total ∧ K + total * pageSize = 2 ^ 64 - pageSize ∧
      (0 < total → ∀ r ∈ l, 1 ≤ r.len) ∧
      (KernelHeap.boot s cr3 executableSize).Agrees (frameOf (mem cr3 511)) K total l := by
  obtain ⟨hkernel, hsize, hunmapped⟩ := hboot
  obtain ⟨k, hk⟩ : ∃ k, k = (executableSize + (pageSize - 1)) / pageSize := ⟨_, rfl⟩
  have hshape := HeapShape.boot hsize hk
  rw [hshape.start] at hunmapped
  have hpos : 1 ≤ k := by
    by_contra hzero
    obtain rfl : k = 0 := by omega
    exact hkernel.image (hunmapped imageBase imageBase_kernel (Nat.le_refl _))
  have hrange : HeapRange (0xFFFFFFFF80000000 + k * pageSize) (0x7FFFF - k) := by
    rw [pageSize] at hk
    refine ⟨?_, ?_, ?_⟩
    all_goals
      rw [pageSize]
      omega
  refine ⟨_, _, _, hrange, ?_, ?_, (boot_hinted hkernel hinit).sound, hshape, ?_, ?_,
    fun x hx => iff_of_false ?_ ?_⟩
  · rw [pageSize] at *
    omega
  · intro htotal r hr
    obtain rfl := List.mem_singleton.mp hr
    exact htotal
  · intro b hb
    cases hb
  · intro i r hr hfree
    obtain rfl := List.mem_singleton.mp (List.mem_of_getElem? hr)
    cases hfree
  · have hpage := hrange.page hx
    have hpte := boot_kpte hkernel hinit (0xFFFFFFFF80000000 + k * pageSize + x * pageSize)
    exact fun hne => hne (hpte.trans (hunmapped _ hpage.1 (Nat.le_add_right _ _)))
  · rintro ⟨r, hr, hfree, -⟩
    obtain rfl := List.mem_singleton.mp hr
    cases hfree

end Boot

theorem imageMem_bootHeap : BootHeap largeRoot largeMemmap imageMem 4096 := by
  refine ⟨imageMem_bootKernel, by decide, fun addr haddr hge => ?_⟩
  obtain ⟨-, htarget⟩ := imageMem_link (f := largeRoot) (Nat.le_refl _) (by omega)
  have hpdpt : frameOf (imageMem largeRoot 511) = largeRoot + 1 := htarget
  rw [hpdpt]
  cases hword : Radix.leafWord pageFormat imageMem (kpath addr) 3 (largeRoot + 1) with
  | none => rfl
  | some e =>
      obtain ⟨h3, h2, h1⟩ := imageMem_path hword
      have hpage : addr / pageSize = imageBase / pageSize := by
        refine (kpath_samePage imageBase_kernel haddr).mp fun j hlo hhi => ?_
        obtain rfl | rfl | rfl : j = 1 ∨ j = 2 ∨ j = 3 := by omega
        · exact h1
        · exact h2
        · exact h3
      have hstart : (initMman 4096).kernelHeapStart = 0xFFFFFFFF80001000 := by decide
      rw [hstart] at hge
      rw [imageBase, pageSize] at hpage
      omega

theorem image_kmalloc : ∃ s st, initPaging largeRoot largeMemmap imageMem = .ok s ∧
    (KernelHeap.boot s largeRoot 4096).kmalloc 1 = .ok (0xFFFFFFFF80001000, st) ∧
    st.heap = ⟨0xFFFFFFFF80001000,
      [⟨0xFFFFFFFF80001000, 1, false⟩, ⟨0xFFFFFFFF80002000, 0x7FFFD, true⟩]⟩ ∧
    st.live = [⟨0xFFFFFFFF80001000, 1⟩] := by
  obtain ⟨s, hinit, hroomy, husable, -⟩ := large_boots_any imageMem
  obtain ⟨K, total, l, hrange, -, -, h⟩ := imageMem_bootHeap.agrees hinit
  have hfind : findAvailableVa (initMman 4096) (kmallocPages 1) = .ok (0xFFFFFFFF80001000,
      ⟨0xFFFFFFFF80001000,
        [⟨0xFFFFFFFF80001000, 1, false⟩, ⟨0xFFFFFFFF80002000, 0x7FFFD, true⟩]⟩) := by
    rfl
  obtain ⟨s', hok⟩ := h.kmalloc_roomy hrange (by decide) hroomy
    (by
      change 32771 + 4 * kmallocPages 1 ≤ s.usablePageCount
      rw [husable]
      decide) hfind
  exact ⟨s, _, hinit, hok, rfl, rfl⟩

/-- A page of the heap is mapped, and freed again: the hint is right before the next search. -/
theorem search_hint_right_large : ∃ s st,
    initPaging largeRoot largeMemmap imageMem = .ok s ∧
    Run FrameStep ⟨s, largeRoot, []⟩ [.allocRegion largeRoot 0xFFFFFFFF80001000 1 kmallocFlags,
      .freePage largeRoot 0xFFFFFFFF80001000] st ∧
    ∀ f < st.phys.firstUsable, st.phys.memoryBitmap f ≠ 0 := by
  obtain ⟨s, _, hinit, hok, -⟩ := image_kmalloc
  obtain ⟨_, s', _, -, halloc, -⟩ := KernelHeap.kmalloc_ok hok
  have hrounds : regionRounds 0xFFFFFFFF80001000 1 = 1 := by decide
  have hproper : FrameCall.Proper ⟨s, largeRoot, []⟩
      (.allocRegion largeRoot 0xFFFFFFFF80001000 1 kmallocFlags) := by
    refine ⟨List.mem_cons_self, fun k hk => ?_⟩
    obtain rfl : k = 0 := Nat.lt_one_iff.mp (hrounds ▸ hk)
    decide
  have hmapped : FrameCall.apply ⟨s, largeRoot, []⟩
      (.allocRegion largeRoot 0xFFFFFFFF80001000 1 kmallocFlags) = .ok ⟨s', largeRoot, []⟩ := by
    have hregion : allocRegion64 s largeRoot 0xFFFFFFFF80001000 1 kmallocFlags = .ok s' := halloc
    change (allocRegion64 s largeRoot 0xFFFFFFFF80001000 1 kmallocFlags).bind _ = _
    rw [hregion]
    rfl
  have hfree : FrameStep ⟨s', largeRoot, []⟩ (.freePage largeRoot 0xFFFFFFFF80001000)
      ⟨_, largeRoot, []⟩ := ⟨⟨List.mem_cons_self, by decide⟩, rfl⟩
  have hrun : Run FrameStep ⟨s, largeRoot, []⟩ _ _ := .cons ⟨hproper, hmapped⟩ (.single hfree)
  exact ⟨s, _, hinit, hrun, (search_hint_right imageMem_bootKernel hinit hrun).1⟩

end GlitchedOS
