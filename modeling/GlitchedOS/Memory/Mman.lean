/-
The address map of the kernel heap, as `mman.c` keeps it: a table of regions, of
which the first `map_index` are in use.  `find_available_va` takes the first free
region that is large enough and appends what is left of it; `kfree` marks a region
free again.  Regions are never joined.
-/
import GlitchedOS.Paging.Model

namespace GlitchedOS

/-- A value of a wider integer type assigned to an `int`. -/
def toInt32 (n : Int) : Int := n.bmod (2 ^ 32)

/-- An `int` converted to `size_t`. -/
def toSizeT (n : Int) : Nat := (n % 2 ^ 64).toNat

structure MappedRegion where
  start : Nat
  pages : Int
  free : Bool
deriving Repr, DecidableEq

def allocMapSize : Nat := 1024

/-- `kernel_heap_start` and the first `map_index` entries of `map`. -/
structure HeapMap where
  kernelHeapStart : Nat
  map : List MappedRegion
deriving Repr, DecidableEq

/-- The reasons `find_available_va` panics. -/
inductive HeapPanic where
  | tooManyAllocations
  | outOfAddresses
deriving Repr, DecidableEq

/-- `init_mman` -/
def initMman (executableSize : Nat) : HeapMap :=
  let start := pageAlign64 ((0xFFFFFFFF80000000 + executableSize) % 2 ^ 64)
  ⟨start, [⟨start, toInt32 ((0xFFFFFFFFF + 2 ^ 64 - start / pageSize) % 2 ^ 64),
    true⟩]⟩

/-- The test of `find_available_va`. -/
def MappedRegion.fits (size : Nat) (r : MappedRegion) : Bool :=
  r.free && decide (size ≤ toSizeT r.pages)

/-- What `find_available_va` leaves of a region of which it takes `size` pages. -/
def MappedRegion.rest (size : Nat) (r : MappedRegion) : MappedRegion :=
  ⟨(r.start + size * pageSize) % 2 ^ 64, toInt32 (toSizeT r.pages - size), true⟩

/-- The region once its first `size` pages are taken. -/
def MappedRegion.taken (size : Nat) (r : MappedRegion) : MappedRegion :=
  ⟨r.start, toInt32 size, false⟩

/-- `find_available_va` -/
def findAvailableVa (h : HeapMap) (size : Nat) : Except HeapPanic (Nat × HeapMap) :=
  match h.map.findIdx? (·.fits size) with
  | none => .error .outOfAddresses
  | some i =>
    match h.map[i]? with
    | none => .error .outOfAddresses
    | some r =>
      if size < toSizeT r.pages then
        if allocMapSize ≤ h.map.length + 1 then .error .tooManyAllocations
        else .ok (r.start, { h with map := h.map.set i (r.taken size) ++ [r.rest size] })
      else .ok (r.start, { h with map := h.map.set i (r.taken size) })

/-- The search of `kfree`: the last entry that starts at `address`, with its size
in bytes. -/
def kfreeLoop (address : Nat) : List MappedRegion → Nat → Nat × Nat → Nat × Nat
  | [], _, found => found
  | r :: rest, i, found =>
    kfreeLoop address rest (i + 1)
      (if r.start = address then (i, toSizeT (toInt32 (r.pages * pageSize)))
        else found)

/-- `kfree`, with the number of bytes whose pages are freed. -/
def kfreeMap (h : HeapMap) (ptr : Nat) : Nat × HeapMap :=
  if ptr < h.kernelHeapStart then (0, h)
  else
    let (i, size) := kfreeLoop ptr h.map 0 (0, 0)
    (size, { h with map := h.map.modify i fun r => { r with free := true } })

/-- The pages `kmalloc` asks for. -/
def kmallocPages (size : Nat) : Nat := pageAlign64 size / pageSize

theorem toSizeT_natCast {n : Nat} (hn : n < 2 ^ 64) : toSizeT (n : Int) = n := by
  rw [toSizeT, Int.emod_eq_of_lt (by omega) (by omega), Int.toNat_natCast]

theorem toInt32_natCast {n : Nat} (hn : n < 2 ^ 31) : toInt32 (n : Int) = n := by
  rw [toInt32]
  apply Int.bmod_eq_of_le <;> omega

/-- The heap at boot is one free region: what the last two gigabytes of addresses have
above the kernel, less the last page.  The subtraction in `init_mman` comes out right
because its result is cut off at 32 bits. -/
theorem initMman_eq {executableSize k : Nat} (hsize : executableSize ≤ 0x7FFFF000)
    (hk : k = (executableSize + (pageSize - 1)) / pageSize) :
    initMman executableSize =
      ⟨0xFFFFFFFF80000000 + k * pageSize,
        [⟨0xFFFFFFFF80000000 + k * pageSize, ((0x7FFFF - k : Nat) : Int), true⟩]⟩ := by
  have hstart : pageAlign64 ((0xFFFFFFFF80000000 + executableSize) % 2 ^ 64) =
      0xFFFFFFFF80000000 + k * pageSize := by
    rw [pageAlign64]
    rw [pageSize] at *
    omega
  have hpages : toInt32 ((0xFFFFFFFFF + 2 ^ 64 -
      ((0xFFFFFFFF80000000 + k * pageSize : Nat) : Int) / pageSize) % 2 ^ 64) =
      ((0x7FFFF - k : Nat) : Int) := by
    rw [toInt32, Int.bmod_def]
    rw [pageSize] at *
    omega
  rw [initMman]
  simp only [hstart]
  rw [hpages]

variable {h h' : HeapMap} {size ptr : Nat}

/-- What a successful search does: it takes the first region that fits, and appends
the rest if there is one. -/
theorem findAvailableVa_ok (hfind : findAvailableVa h size = .ok (ptr, h')) :
    ∃ before r after, h.map = before ++ r :: after ∧
      (∀ x ∈ before, x.fits size = false) ∧ r.fits size = true ∧ ptr = r.start ∧
      h'.kernelHeapStart = h.kernelHeapStart ∧
      ((size < toSizeT r.pages ∧ h.map.length + 1 < allocMapSize ∧
          h'.map = before ++ r.taken size :: after ++ [r.rest size]) ∨
        (size = toSizeT r.pages ∧
          h'.map = before ++ r.taken size :: after)) := by
  rw [findAvailableVa] at hfind
  split at hfind
  · cases hfind
  rename_i i hi
  obtain ⟨hlt, hfits, hfirst⟩ := List.findIdx?_eq_some_iff_getElem.mp hi
  rw [List.getElem?_eq_getElem hlt] at hfind
  dsimp only at hfind
  have hsplit : h.map = h.map.take i ++ h.map[i] :: h.map.drop (i + 1) := by
    rw [← List.drop_eq_getElem_cons hlt, List.take_append_drop]
  have hset : ∀ x, h.map.set i x = h.map.take i ++ x :: h.map.drop (i + 1) :=
    fun x => List.set_eq_take_append_cons_drop.trans (if_pos hlt)
  have hbefore : ∀ x ∈ h.map.take i, x.fits size = false := by
    intro x hx
    obtain ⟨j, hj, rfl⟩ := List.mem_take_iff_getElem.mp hx
    have hji : j < i := lt_of_lt_of_le hj (min_le_left _ _)
    simpa using hfirst j hji
  have hle : size ≤ toSizeT h.map[i].pages := by
    rw [MappedRegion.fits, Bool.and_eq_true, decide_eq_true_iff] at hfits
    exact hfits.2
  refine ⟨_, _, _, hsplit, hbefore, hfits, ?_⟩
  split at hfind
  · rename_i hless
    split at hfind
    · cases hfind
    rename_i hroom
    obtain ⟨rfl, rfl⟩ := Prod.mk.inj (Except.ok.inj hfind)
    exact ⟨rfl, rfl, Or.inl ⟨hless, not_le.mp hroom, by rw [hset]⟩⟩
  · rename_i hless
    obtain ⟨rfl, rfl⟩ := Prod.mk.inj (Except.ok.inj hfind)
    exact ⟨rfl, rfl, Or.inr ⟨le_antisymm hle (not_lt.mp hless), by rw [hset]⟩⟩

/-- Why a search fails: nothing fits, or the first region that does is split and the
table is full. -/
theorem findAvailableVa_error {reason : HeapPanic}
    (hfind : findAvailableVa h size = .error reason) :
    (∀ x ∈ h.map, x.fits size = false) ∨
      ∃ before r after, h.map = before ++ r :: after ∧
        (∀ x ∈ before, x.fits size = false) ∧ r.fits size = true ∧
        size < toSizeT r.pages ∧ allocMapSize ≤ h.map.length + 1 := by
  rw [findAvailableVa] at hfind
  split at hfind
  · rename_i hnone
    left
    intro x hx
    simpa using List.findIdx?_eq_none_iff.mp hnone x hx
  rename_i i hi
  obtain ⟨hlt, hfits, hfirst⟩ := List.findIdx?_eq_some_iff_getElem.mp hi
  rw [List.getElem?_eq_getElem hlt] at hfind
  dsimp only at hfind
  right
  refine ⟨h.map.take i, h.map[i], h.map.drop (i + 1), ?_, ?_, hfits, ?_⟩
  · rw [← List.drop_eq_getElem_cons hlt, List.take_append_drop]
  · intro x hx
    obtain ⟨j, hj, rfl⟩ := List.mem_take_iff_getElem.mp hx
    have hji : j < i := lt_of_lt_of_le hj (min_le_left _ _)
    simpa using hfirst j hji
  · split at hfind
    · rename_i hless
      split at hfind
      · rename_i hfull
        exact ⟨hless, hfull⟩
      · cases hfind
    · cases hfind

end GlitchedOS
