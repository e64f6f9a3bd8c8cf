/-
The table of `mman.c` as pieces of one range of pages.  The heap at boot is small enough
that no cast to `int` loses anything, so `find_available_va` takes the first piece that
fits, and `kfree` releases the last piece that starts at its pointer.  Where none does,
`kfree` marks the first entry of the table.
-/
import GlitchedOS.Lib.FirstFit
import GlitchedOS.Memory.HeapRoom

namespace GlitchedOS

open FirstFit

/-- The entry of a piece, in a heap whose first page is at `K`. -/
def region (K : Nat) (r : Piece) : MappedRegion :=
  ⟨K + r.start * pageSize, (r.len : Int), r.free⟩

/-- `total` pages from `K` on, behind the first page of the kernel image; the page behind
them still has addresses of 64 bits. -/
structure HeapRange (K total : Nat) : Prop where
  aligned : K % pageSize = 0
  above : 0xFFFFFFFF80000000 + pageSize ≤ K
  fits : K + (total + 1) * pageSize ≤ 2 ^ 64

/-- The table `h` cuts the `total` pages from `K` on into the pieces `l`. -/
structure HeapShape (K total : Nat) (h : HeapMap) (l : List Piece) : Prop where
  start : h.kernelHeapStart = K
  map : h.map = l.map (region K)
  shares : Shares total l

/-- The heap ends with the address space, so it has few pages. -/
theorem HeapRange.total_le {K total : Nat} (hrange : HeapRange K total) :
    total ≤ maxRegionPages := by
  obtain ⟨-, habove, hfits⟩ := hrange
  rw [maxRegionPages]
  rw [pageSize] at *
  omega

variable {K total n : Nat} {r : Piece} {h h' : HeapMap} {l l' : List Piece}

@[simp] theorem region_start (K : Nat) (r : Piece) :
    (region K r).start = K + r.start * pageSize := rfl

@[simp] theorem region_pages (K : Nat) (r : Piece) : (region K r).pages = r.len := rfl

theorem region_fits (hlen : r.len ≤ maxRegionPages) :
    (region K r).fits n = true ↔ r.free = true ∧ n ≤ r.len := by
  rw [maxRegionPages] at hlen
  rw [MappedRegion.fits, Bool.and_eq_true, decide_eq_true_iff, region,
    toSizeT_natCast (by omega)]

theorem region_taken (hn : n ≤ maxRegionPages) :
    (region K r).taken n = region K (r.taken n) := by
  rw [maxRegionPages] at hn
  rw [MappedRegion.taken, toInt32_natCast (by omega)]
  rfl

theorem region_rest (hn : n ≤ r.len) (hlen : r.len ≤ maxRegionPages)
    (hfits : K + (r.start + n) * pageSize < 2 ^ 64) :
    (region K r).rest n = region K (r.rest n) := by
  rw [maxRegionPages] at hlen
  have hstart : K + r.start * pageSize + n * pageSize = K + (r.start + n) * pageSize := by
    rw [Nat.add_mul, Nat.add_assoc]
  have hsub : ((r.len : Nat) : Int) - (n : Int) = ((r.len - n : Nat) : Int) := by omega
  rw [MappedRegion.rest, region, region, toSizeT_natCast (by omega), hsub,
    toInt32_natCast (by omega), hstart, Nat.mod_eq_of_lt hfits]
  rfl

theorem region_bytes (hlen : r.len ≤ maxRegionPages) :
    toSizeT (toInt32 ((region K r).pages * pageSize)) = r.len * pageSize := by
  rw [maxRegionPages] at hlen
  have hmul : (region K r).pages * (pageSize : Int) = ((r.len * pageSize : Nat) : Int) := by
    rw [region, Int.natCast_mul]
  rw [hmul]
  rw [pageSize]
  rw [toInt32_natCast (by omega), toSizeT_natCast (by omega)]

theorem region_start_inj {q : Piece} :
    (region K q).start = (region K r).start ↔ q.start = r.start := by
  simp only [region, pageSize]
  omega

theorem findAvailableVa_head {ptr : Nat} {m : MappedRegion} {rest : List MappedRegion}
    (hmap : h.map = m :: rest) (hfits : m.fits n = true)
    (hfind : findAvailableVa h n = .ok (ptr, h')) : ptr = m.start := by
  obtain ⟨before, m', after, hsplit, hbefore, -, rfl, -⟩ := findAvailableVa_ok hfind
  rw [hmap] at hsplit
  cases before with
  | nil => rw [(List.cons.inj hsplit).1]
  | cons first before =>
      have hno := hbefore first List.mem_cons_self
      rw [← (List.cons.inj hsplit).1, hfits] at hno
      cases hno

namespace HeapShape

theorem len_le (hs : HeapShape K total h l) (hrange : HeapRange K total) (hr : r ∈ l) :
    r.len ≤ maxRegionPages :=
  Nat.le_trans (Nat.le_trans (Nat.le_add_left _ _) (hs.shares.inside r hr)) hrange.total_le

/-- The heap that `init_mman` sets up behind a kernel image. -/
theorem boot {executableSize k : Nat} (hsize : executableSize ≤ 0x7FFFF000)
    (hk : k = (executableSize + (pageSize - 1)) / pageSize) :
    HeapShape (0xFFFFFFFF80000000 + k * pageSize) (0x7FFFF - k) (initMman executableSize)
      [⟨0, 0x7FFFF - k, true⟩] := by
  rw [initMman_eq hsize hk]
  refine ⟨rfl, ?_, Shares.single _⟩
  simp only [List.map_cons, List.map_nil, region, Nat.zero_mul, Nat.add_zero]

/-- A successful search takes the first pages of a piece that fits. -/
theorem findAvailableVa {ptr : Nat} (hs : HeapShape K total h l) (hrange : HeapRange K total)
    (hfind : GlitchedOS.findAvailableVa h n = .ok (ptr, h')) :
    ∃ k r l', Takes n k r l l' ∧ ptr = K + r.start * pageSize ∧ HeapShape K total h' l' := by
  obtain ⟨before, m, after, hmap, -, hfits, rfl, hstart, hcases⟩ := findAvailableVa_ok hfind
  rw [hs.map, List.map_eq_append_iff] at hmap
  obtain ⟨l₁, l₂, rfl, rfl, hmap⟩ := hmap
  obtain ⟨r, l₃, rfl, rfl, rfl⟩ := List.map_eq_cons_iff.mp hmap
  have hr : r ∈ l₁ ++ r :: l₃ := List.mem_append_right _ List.mem_cons_self
  have hlen := hs.len_le hrange hr
  obtain ⟨hfree, hle⟩ := (region_fits hlen).mp hfits
  have hsize : toSizeT (region K r).pages = r.len := by
    rw [maxRegionPages] at hlen
    rw [region, toSizeT_natCast (by omega)]
  have hin := hs.shares.inside r hr
  have hend := hrange.fits
  have htakes : Takes n l₁.length r (l₁ ++ r :: l₃)
      (l₁ ++ r.taken n :: l₃ ++ if n < r.len then [r.rest n] else []) := by
    refine ⟨?_, hfree, hle, ?_⟩
    · rw [List.getElem?_append_right (Nat.le_refl _), Nat.sub_self, List.getElem?_cons_zero]
    · rw [List.set_append_right _ _ (Nat.le_refl _), Nat.sub_self, List.set_cons_zero]
  refine ⟨l₁.length, r, _, htakes, rfl, hstart.trans hs.start, ?_, htakes.shares hs.shares⟩
  have htaken : (region K r).taken n = region K (r.taken n) := region_taken (hle.trans hlen)
  rw [hsize] at hcases
  rcases hcases with ⟨hless, -, hmap'⟩ | ⟨rfl, hmap'⟩
  · have hrest : (region K r).rest n = region K (r.rest n) := by
      refine region_rest hle hlen ?_
      rw [pageSize] at hend ⊢
      omega
    rw [hmap', htaken, hrest, if_pos hless]
    simp only [List.map_append, List.map_cons, List.map_nil]
  · rw [hmap', htaken, if_neg (Nat.lt_irrefl _), List.append_nil]
    simp only [List.map_append, List.map_cons]

end HeapShape

/-- The loop of `kfree` keeps what it started with, or finds the last entry. -/
theorem kfreeLoop_spec (address : Nat) : ∀ (m : List MappedRegion) (i : Nat) (found : Nat × Nat),
    (∀ r ∈ m, r.start ≠ address) ∧ kfreeLoop address m i found = found ∨
      ∃ k r, m[k]? = some r ∧ r.start = address ∧
        (∀ (j : Nat) (q : MappedRegion), k < j → m[j]? = some q → q.start ≠ address) ∧
        kfreeLoop address m i found = (i + k, toSizeT (toInt32 (r.pages * pageSize)))
  | [], i, found => Or.inl ⟨nofun, rfl⟩
  | r :: rest, i, found => by
      rw [kfreeLoop]
      rcases kfreeLoop_spec address rest (i + 1)
          (if r.start = address then (i, toSizeT (toInt32 (r.pages * pageSize))) else found) with
        ⟨hnone, hloop⟩ | ⟨k, q, hq, hstart, hlast, hloop⟩
      · by_cases hr : r.start = address
        · right
          refine ⟨0, r, rfl, hr, fun j q hj hq => ?_, by rw [hloop, if_pos hr, Nat.add_zero]⟩
          obtain ⟨j, rfl⟩ := Nat.exists_eq_succ_of_ne_zero (Nat.ne_of_gt hj)
          exact hnone q (List.mem_of_getElem? hq)
        · left
          refine ⟨fun q hq => ?_, by rw [hloop, if_neg hr]⟩
          rcases List.mem_cons.mp hq with rfl | hq
          · exact hr
          · exact hnone q hq
      · right
        refine ⟨k + 1, q, hq, hstart, fun j p hj hp => ?_, ?_⟩
        · obtain ⟨j, rfl⟩ := Nat.exists_eq_succ_of_ne_zero (by omega : j ≠ 0)
          exact hlast j p (Nat.lt_of_succ_lt_succ hj) hp
        · rw [hloop, Nat.add_right_comm, Nat.add_assoc]

/-- Where no entry starts at the pointer, the first one is marked free. -/
theorem kfreeMap_unmatched {p : Nat} (hp : h.kernelHeapStart ≤ p)
    (hnone : ∀ r ∈ h.map, r.start ≠ p) :
    kfreeMap h p = (0, { h with map := h.map.modify 0 fun r => { r with free := true } }) := by
  rw [kfreeMap, if_neg (Nat.not_lt.mpr hp)]
  rcases kfreeLoop_spec p h.map 0 (0, 0) with ⟨-, hloop⟩ | ⟨k, r, hr, hstart, -⟩
  · rw [hloop]
  · exact absurd hstart (hnone r (List.mem_of_getElem? hr))

theorem HeapMap.ext_map {h h' : HeapMap} (hstart : h.kernelHeapStart = h'.kernelHeapStart)
    (hmap : h.map = h'.map) : h = h' := by
  obtain ⟨start, map⟩ := h
  obtain rfl : start = h'.kernelHeapStart := hstart
  obtain rfl : map = h'.map := hmap
  rfl

theorem modify_free_eq_self (m : List MappedRegion) :
    (m.modify 0 fun r => { r with free := true }) = m ↔
      m.head?.all MappedRegion.free = true := by
  cases m with
  | nil => exact iff_of_true rfl rfl
  | cons r rest =>
      obtain ⟨start, pages, free⟩ := r
      simp only [List.modify_zero_cons, List.head?_cons, List.cons.injEq, MappedRegion.mk.injEq,
        true_and, and_true, Option.all_some]
      exact eq_comm

namespace HeapShape

/-- What `kfree` does where an entry starts at the pointer. -/
theorem kfreeMap {p : Nat} (hs : HeapShape K total h l) (hrange : HeapRange K total)
    (hp : ∃ r ∈ h.map, r.start = p) :
    ∃ k r, l[k]? = some r ∧ p = K + r.start * pageSize ∧
      (∀ (j : Nat) (q : Piece), k < j → l[j]? = some q → q.start ≠ r.start) ∧
      (GlitchedOS.kfreeMap h p).1 = r.len * pageSize ∧
      HeapShape K total (GlitchedOS.kfreeMap h p).2 (l.set k r.released) := by
  obtain ⟨m, hm, hmp⟩ := hp
  have hge : ¬ p < h.kernelHeapStart := by
    rw [hs.map] at hm
    obtain ⟨r, -, rfl⟩ := List.mem_map.mp hm
    rw [hs.start, ← hmp, region]
    exact Nat.not_lt.mpr (Nat.le_add_right _ _)
  rw [GlitchedOS.kfreeMap, if_neg hge]
  rcases kfreeLoop_spec p h.map 0 (0, 0) with ⟨hnone, -⟩ | ⟨k, m', hk, hstart, hlast, hloop⟩
  · exact absurd hmp (hnone m hm)
  rw [hs.map, List.getElem?_map, Option.map_eq_some_iff] at hk
  obtain ⟨r, hr, rfl⟩ := hk
  have hlen := hs.len_le hrange (List.mem_of_getElem? hr)
  rw [region_bytes hlen, Nat.zero_add] at hloop
  rw [hloop]
  refine ⟨k, r, hr, hstart.symm, fun j q hj hq heq => ?_, rfl, hs.start, ?_,
    shares_released hr hs.shares⟩
  · refine hlast j (region K q) hj ?_ ((region_start_inj.mpr heq).trans hstart)
    rw [hs.map, List.getElem?_map, hq, Option.map_some]
  · change h.map.modify k _ = _
    rw [hs.map, List.map_set, List.modify_eq_set_getElem?, List.getElem?_map, hr]
    rfl

end HeapShape

end GlitchedOS
