/-
Which files `load_elf` loads safely.  It trusts the program headers: the loader is
safe where their array fits on the kernel stack and, up to the first segment at address
zero, each `PT_LOAD` segment lies in the lower half, has no more bytes in the file than in
memory, and shares no page with another.
-/
import GlitchedOS.Process.Elf

namespace GlitchedOS

open Radix

/-! ### Header fields -/

theorem littleEndian_lt (bytes : List Byte) :
    littleEndian bytes < 256 ^ bytes.length := by
  induction bytes with
  | nil => decide
  | cons b rest ih =>
      have hb : b.toNat < 256 := b.isLt
      rw [littleEndian, List.length_cons, Nat.pow_succ]
      omega

theorem fieldAt_lt (buffer : List Byte) (offset width : Nat) :
    fieldAt buffer offset width < 256 ^ width := by
  refine Nat.lt_of_lt_of_le (littleEndian_lt _) (Nat.pow_le_pow_right (by decide) ?_)
  rw [List.length_take]
  exact Nat.min_le_left _ _

/-- The fields of a header are 64-bit words. -/
structure Elf64Phdr.Words (h : Elf64Phdr) : Prop where
  vaddr : h.pVaddr < 2 ^ 64
  filesz : h.pFilesz < 2 ^ 64
  memsz : h.pMemsz < 2 ^ 64

theorem programHeaders_words {file : List Byte} {stack : StackBytes} {h : Elf64Phdr}
    (hmem : h ∈ programHeaders file stack) : h.Words := by
  obtain ⟨i, -, rfl⟩ := List.mem_map.mp hmem
  exact ⟨fieldAt_lt _ 16 8, fieldAt_lt _ 32 8, fieldAt_lt _ 40 8⟩

/-! ### Placement -/

namespace Elf64Phdr

/-- The first page of a segment, and one past its last. -/
def firstPage (h : Elf64Phdr) : Nat := h.pVaddr / pageSize

def endPage (h : Elf64Phdr) : Nat := (h.pVaddr + h.pMemsz + (pageSize - 1)) / pageSize

def HasPage (h : Elf64Phdr) (p : Nat) : Prop := h.firstPage ≤ p ∧ p < h.endPage

/-- The segment lies in the lower half, or has no page at all. -/
def InLowerHalf (h : Elf64Phdr) : Prop :=
  h.pVaddr + h.pMemsz ≤ lowerHalf ∨ (h.pMemsz = 0 ∧ h.pVaddr % pageSize = 0)

def Apart (h h' : Elf64Phdr) : Prop := ∀ p, ¬ (h.HasPage p ∧ h'.HasPage p)

variable {h : Elf64Phdr}

theorem regionRounds_eq (hw : h.Words) (hlow : h.InLowerHalf) :
    h.firstPage + regionRounds h.pVaddr h.pMemsz = h.endPage := by
  have hv := hw.vaddr
  have hfit : h.pVaddr + h.pMemsz + pageSize ≤ 2 ^ 64 := by
    rcases hlow with hlow | ⟨hzero, halign⟩
    · rw [lowerHalf] at hlow
      rw [pageSize]
      omega
    · rw [pageSize] at *
      omega
  rw [GlitchedOS.regionRounds_eq hfit, firstPage, endPage, pageRounds, pageAlign]
  rw [pageSize] at *
  omega

theorem round_lt (hw : h.Words) (hlow : h.InLowerHalf) :
    ∀ k < regionRounds h.pVaddr h.pMemsz, h.pVaddr + k * pageSize < lowerHalf := by
  intro k hk
  have hrounds := regionRounds_eq hw hlow
  rw [firstPage, endPage] at hrounds
  rw [lowerHalf]
  rcases hlow with hlow | ⟨hzero, halign⟩
  · rw [lowerHalf] at hlow
    rw [pageSize] at *
    omega
  · rw [pageSize] at *
    omega

theorem inPages_iff (hw : h.Words) (hlow : h.InLowerHalf) (a : Nat) :
    InPages h.pVaddr (regionRounds h.pVaddr h.pMemsz) a ↔ h.HasPage (a / pageSize) := by
  rw [InPages, HasPage, ← regionRounds_eq hw hlow, firstPage]

theorem hasPage_byte {k : Nat} (hk : k < h.pMemsz) :
    h.HasPage ((h.pVaddr + k) / pageSize) := by
  rw [HasPage, firstPage, endPage]
  rw [pageSize]
  omega

/-- The arguments of the `memset` of a segment do not wrap. -/
theorem zeroFill_eq (hw : h.Words) (hlow : h.InLowerHalf) (hfile : h.pFilesz ≤ h.pMemsz) :
    (h.pVaddr + h.pFilesz) % 2 ^ 64 = h.pVaddr + h.pFilesz ∧
      (h.pMemsz + 2 ^ 64 - h.pFilesz) % 2 ^ 64 = h.pMemsz - h.pFilesz := by
  have hv := hw.vaddr
  have hm := hw.memsz
  have hend : h.pVaddr + h.pMemsz < 2 ^ 64 := by
    rcases hlow with hlow | ⟨hzero, -⟩
    · rw [lowerHalf] at hlow
      omega
    · omega
  exact ⟨Nat.mod_eq_of_lt (by omega), by omega⟩

theorem HasPage.lt {p : Nat} (hpage : h.HasPage p) (hlow : h.InLowerHalf) :
    p * pageSize + pageSize ≤ lowerHalf := by
  rw [HasPage, firstPage, endPage] at hpage
  rcases hlow with hlow | ⟨hzero, halign⟩
  · rw [lowerHalf] at *
    rw [pageSize] at *
    omega
  · rw [pageSize] at *
    omega

theorem byte_lt (hlow : h.InLowerHalf) {k : Nat} (hk : k < h.pMemsz) :
    h.pVaddr + k < lowerHalf := by
  rcases hlow with hlow | ⟨hzero, -⟩
  · omega
  · omega

end Elf64Phdr

/-! ### One segment -/

variable {s s' : PhysMem} {held : Nat → Nat} {rest : List (Nat × Nat)} {root : Nat}

/-- What loading the segment `h` with the file bytes `data` does to the lower half. -/
structure SegmentLoaded (root : Nat) (rest : List (Nat × Nat)) (held : Nat → Nat)
    (h : Elf64Phdr) (data : List Byte) (s s' : PhysMem) : Prop where
  counted : Counted s' held ((4, root) :: rest)
  userData : UserData s' root rest
  mapped : ∀ a < lowerHalf, pte s' root a ≠ none ↔
    h.HasPage (a / pageSize) ∨ pte s root a ≠ none
  fresh : ∀ a < lowerHalf, h.HasPage (a / pageSize) → pte s root a = none
  file : ∀ k < data.length, virtByte s' root (h.pVaddr + k) = some (data.getD k 0)
  zero : ∀ k, h.pFilesz ≤ k → k < h.pMemsz →
    virtByte s' root (h.pVaddr + k) = some 0
  other : ∀ a < lowerHalf, ¬ h.HasPage (a / pageSize) →
    virtByte s' root a = virtByte s root a

theorem Counted.sameTables (hc : Counted s held ((4, root) :: rest))
    (hsame : SameTables
      (fun f => 0 < forestTables pageFormat s.mem ((4, root) :: rest) f) s s') :
    Counted s' held ((4, root) :: rest) ∧
      ∀ f, forestTables pageFormat s'.mem ((4, root) :: rest) f =
        forestTables pageFormat s.mem ((4, root) :: rest) f := by
  obtain ⟨⟨m, rfl⟩, hmem⟩ := hsame
  exact ⟨hc.memCongr (fun f hf i => congrFun (hmem f hf) i) rfl rfl,
    fun f => forestWeight_congr pageFormat _ _ fun g hg i => congrFun (hmem g hg) i⟩

theorem UserData.sameTables (hu : UserData s root rest)
    (hc : Counted s held ((4, root) :: rest))
    (hsame : SameTables
      (fun f => 0 < forestTables pageFormat s.mem ((4, root) :: rest) f) s s') :
    UserData s' root rest ∧ ∀ a < lowerHalf, pte s' root a = pte s root a := by
  have htables := (hc.sameTables hsame).2
  have hpte : ∀ a < lowerHalf, pte s' root a = pte s root a := by
    intro a ha
    apply leafWord_congr pageFormat (vpath_inRange ha)
    intro f hf i
    have hle : tableCount pageFormat s.mem 4 root f ≤
        forestTables pageFormat s.mem ((4, root) :: rest) f :=
      tableCount_le_forestTables pageFormat s.mem (x := (4, root)) (by simp) f
    rw [hsame.mem f (Nat.lt_of_lt_of_le hf hle)]
  refine ⟨⟨fun a e ha h => ?_, fun a b e e' ha hb h h' => ?_⟩, hpte⟩
  · rw [hpte a ha] at h
    rw [htables]
    exact hu.data a e ha h
  · rw [hpte a ha] at h
    rw [hpte b hb] at h'
    exact hu.inj a b e e' ha hb h h'

theorem translate_ne_none {a : Nat} (ha : a < lowerHalf) :
    translate s root a ≠ none ↔ pte s root a ≠ none := by
  rw [UserData.translate_eq ha]
  simp

/-- The stores of `load_elf` to a segment whose pages are mapped. -/
theorem storeSegment {h : Elf64Phdr} {data : List Byte} {A T : Nat → Prop} (hwords : h.Words)
    (hlow : h.InLowerHalf) (hfile : h.pFilesz ≤ h.pMemsz)
    (hdata : data.length ≤ h.pFilesz) (hd : DataPages s root A T)
    (hpages : ∀ a < lowerHalf, h.HasPage (a / pageSize) → A a ∧ pte s root a ≠ none) :
    ∃ s₁ s₂, storeBytes root h.pVaddr (data.getD · 0) data.length s = some s₁ ∧
      storeBytes root (h.pVaddr + h.pFilesz) (fun _ => 0) (h.pMemsz - h.pFilesz) s₁ =
        some s₂ ∧ SameTables T s s₂ ∧
      (∀ k < data.length, virtByte s₂ root (h.pVaddr + k) = some (data.getD k 0)) ∧
      (∀ k, h.pFilesz ≤ k → k < h.pMemsz →
        virtByte s₂ root (h.pVaddr + k) = some 0) ∧
      ∀ a, A a → (a < h.pVaddr ∨ h.pVaddr + h.pMemsz ≤ a ∨
        (h.pVaddr + data.length ≤ a ∧ a < h.pVaddr + h.pFilesz)) →
          virtByte s₂ root a = virtByte s root a := by
  have hv := hwords.vaddr
  have hbyte : ∀ k < h.pMemsz, A (h.pVaddr + k) ∧ translate s root (h.pVaddr + k) ≠ none := by
    intro k hk
    have hlt := Elf64Phdr.byte_lt hlow hk
    obtain ⟨hA, hmapped⟩ := hpages _ hlt (Elf64Phdr.hasPage_byte hk)
    exact ⟨hA, (translate_ne_none hlt).mpr hmapped⟩
  have hend : h.pVaddr + h.pMemsz < 2 ^ 64 := by
    rcases hlow with hlow | ⟨hzero, -⟩
    · rw [lowerHalf] at hlow
      omega
    · omega
  obtain ⟨s₁, hs₁, hsame₁, hbytes₁⟩ := hd.storeBytes h.pVaddr (data.getD · 0)
    (n := data.length) (by omega) (fun k hk => (hbyte k (by omega)).1)
    (fun k hk => (hbyte k (by omega)).2)
  have hzeros : ∀ k < h.pMemsz - h.pFilesz, A (h.pVaddr + h.pFilesz + k) ∧
      translate s₁ root (h.pVaddr + h.pFilesz + k) ≠ none := by
    intro k hk
    obtain ⟨hA, htrans⟩ := hbyte (h.pFilesz + k) (by omega)
    rw [← Nat.add_assoc] at hA htrans
    rw [hd.stable s₁ hsame₁ _ hA]
    exact ⟨hA, htrans⟩
  obtain ⟨s₂, hs₂, hsame₂, hbytes₂⟩ := (hd.sameTables hsame₁).storeBytes
    (h.pVaddr + h.pFilesz) (fun _ => 0) (n := h.pMemsz - h.pFilesz) (by omega)
    (fun k hk => (hzeros k hk).1) (fun k hk => (hzeros k hk).2)
  refine ⟨s₁, s₂, hs₁, hs₂, hsame₁.trans hsame₂, ?_, ?_, ?_⟩
  · intro k hk
    have hA := (hbyte k (by omega)).1
    rw [hbytes₂ _ hA, if_neg (by omega), hbytes₁ _ hA, if_pos (by omega),
      Nat.add_sub_cancel_left]
  · intro k hlo hhi
    rw [hbytes₂ _ (hbyte k hhi).1, if_pos (by omega)]
  · intro a ha hout
    rw [hbytes₂ _ ha, if_neg (by omega), hbytes₁ _ ha, if_neg (by omega)]

/-- `alloc_region` leaves the bytes of the pages that were mapped. -/
theorem RegionMapped.virtByte {vaddr n a : Nat} {flags : Flags} {s₀ : PhysMem}
    (hregion : RegionMapped root rest vaddr flags s n s₀)
    (hc : Counted s held ((4, root) :: rest)) (hu : UserData s root rest)
    (ha : a < lowerHalf) (hout : ¬ InPages vaddr n a) :
    GlitchedOS.virtByte s₀ root a = GlitchedOS.virtByte s root a := by
  have hpte := hregion.pte a ha
  rw [if_neg hout] at hpte
  rw [GlitchedOS.virtByte, GlitchedOS.virtByte, UserData.translate_eq ha,
    UserData.translate_eq ha, hpte]
  cases he : GlitchedOS.pte s root a with
  | none => rfl
  | some e =>
      obtain ⟨hlt, hused, -⟩ := hc.mapped (by simp) ha he
      have hsame := (hregion.kept _ hlt hused).2.2 (hu.data a e ha he)
      simp only [Option.map_some, PhysMem.byteAt, hsame]

/-- The memory of a segment after `alloc_region` and the stores of `load_elf`. -/
theorem segmentLoaded {h : Elf64Phdr} {data : List Byte} {flags : Flags} {s₀ : PhysMem}
    (hwords : h.Words) (hlow : h.InLowerHalf) (hfile : h.pFilesz ≤ h.pMemsz)
    (hdata : data.length ≤ h.pFilesz) (hc : Counted s held ((4, root) :: rest))
    (hu : UserData s root rest)
    (halloc : allocRegion64 s root h.pVaddr h.pMemsz flags = .ok s₀) :
    ∃ s₁ s₂, storeBytes root h.pVaddr (data.getD · 0) data.length s₀ = some s₁ ∧
      storeBytes root (h.pVaddr + h.pFilesz) (fun _ => 0) (h.pMemsz - h.pFilesz) s₁ =
        some s₂ ∧
      (∃ m, s₂ = { s₀ with mem := m }) ∧
      SegmentLoaded root rest held h data s s₂ := by
  obtain ⟨hc₀, hregion⟩ :=
    allocRegion64_spec hc hu (Elf64Phdr.round_lt hwords hlow) halloc
  have hpages : ∀ a < lowerHalf,
      (h.HasPage (a / pageSize) → pte s root a = none ∧ pte s₀ root a ≠ none) ∧
        (¬ h.HasPage (a / pageSize) → pte s₀ root a = pte s root a) := by
    intro a ha
    have hpte := hregion.pte a ha
    rw [← Elf64Phdr.inPages_iff hwords hlow]
    constructor
    · intro hpage
      rw [if_pos hpage] at hpte
      obtain ⟨hnone, f, -, hsome⟩ := hpte
      rw [hsome]
      exact ⟨hnone, Option.some_ne_none _⟩
    · intro hpage
      rwa [if_neg hpage] at hpte
  obtain ⟨s₁, s₂, hs₁, hs₂, hsame, hbytes, hzero, hother⟩ := storeSegment hwords hlow
    hfile hdata hregion.userData.dataPages
    (fun a ha hpage => ⟨ha, ((hpages a ha).1 hpage).2⟩)
  obtain ⟨hu₂, hpte₂⟩ := hregion.userData.sameTables hc₀ hsame
  refine ⟨s₁, s₂, hs₁, hs₂, hsame.globals,
    (hc₀.sameTables hsame).1, hu₂, ?_, ?_, hbytes, hzero, ?_⟩
  · intro a ha
    rw [hpte₂ a ha]
    by_cases hpage : h.HasPage (a / pageSize)
    · exact iff_of_true ((hpages a ha).1 hpage).2 (Or.inl hpage)
    · rw [(hpages a ha).2 hpage, or_iff_right hpage]
  · intro a ha hpage
    exact ((hpages a ha).1 hpage).1
  · intro a ha hpage
    have hout : a < h.pVaddr ∨ h.pVaddr + h.pMemsz ≤ a := by
      by_contra hin
      have hbyte := Elf64Phdr.hasPage_byte (h := h) (k := a - h.pVaddr) (by omega)
      rw [show h.pVaddr + (a - h.pVaddr) = a by omega] at hbyte
      exact hpage hbyte
    rw [hother a ha (by omega)]
    exact hregion.virtByte hc hu ha
      fun hin => hpage ((Elf64Phdr.inPages_iff hwords hlow a).mp hin)

/-- Only pages of the lower half are mapped, and every store for a segment goes to a
page mapped for it. -/
structure SafeLog (log : List LoadEvent) : Prop where
  lower : ∀ i vaddr pages, .mapped i vaddr pages ∈ log →
    ∀ k < pages, vaddr + k * pageSize < lowerHalf
  inside : ∀ i addr count, .wrote i addr count ∈ log → ∀ k < count,
    ∃ vaddr pages, .mapped i vaddr pages ∈ log ∧
      InPages vaddr pages ((addr + k) % 2 ^ 64)

theorem SafeLog.nil : SafeLog [] := ⟨nofun, nofun⟩

theorem SafeLog.append {log log' : List LoadEvent} (h : SafeLog log)
    (h' : SafeLog log') : SafeLog (log ++ log') where
  lower i vaddr pages hmem := by
    rcases List.mem_append.mp hmem with hmem | hmem
    · exact h.lower i vaddr pages hmem
    · exact h'.lower i vaddr pages hmem
  inside i addr count hmem k hk := by
    rcases List.mem_append.mp hmem with hmem | hmem
    · obtain ⟨vaddr, pages, hin, hpage⟩ := h.inside i addr count hmem k hk
      exact ⟨vaddr, pages, List.mem_append_left _ hin, hpage⟩
    · obtain ⟨vaddr, pages, hin, hpage⟩ := h'.inside i addr count hmem k hk
      exact ⟨vaddr, pages, List.mem_append_right _ hin, hpage⟩

section Segment

variable {nx : Bool} {i : Nat} {h : Elf64Phdr}

theorem regionDone_le (s : PhysMem) (root vaddr size : Nat) (flags : Flags) :
    regionDone s root vaddr size flags ≤ regionRounds vaddr size :=
  loopDone_le _ _ _

theorem regionDone_of_ok {vaddr size : Nat} {flags : Flags}
    (hok : allocRegion64 s root vaddr size flags = .ok s') :
    regionDone s root vaddr size flags = regionRounds vaddr size := by
  rw [allocRegion64, bind_ok] at hok
  obtain ⟨⟨c, s₁⟩, hloop, -⟩ := hok
  exact Nat.le_antisymm (regionDone_le s root vaddr size flags)
    (le_loopDone hloop (Nat.le_refl _))

theorem readFile_length_le (file : List Byte) (offset size : Nat) :
    (readFile file offset size).length ≤ size := by
  rw [readFile, List.length_take]
  exact Nat.min_le_left _ _

theorem safeLog_alloc (i : Nat) (s : PhysMem) (root : Nat) (nx : Bool)
    (hwords : h.Words) (hlow : h.InLowerHalf) :
    SafeLog (allocSegment i s root h.pVaddr h.pMemsz (segmentFlags h nx)).log where
  lower j vaddr pages hmem k hk := by
    obtain ⟨-, rfl, rfl⟩ := LoadEvent.mapped.inj (List.mem_singleton.mp hmem)
    exact Elf64Phdr.round_lt hwords hlow k
      (Nat.lt_of_lt_of_le hk (regionDone_le s root _ _ _))
  inside j addr count hmem := by
    cases List.mem_singleton.mp hmem

theorem safeLog_segment (i : Nat) {count : Nat} (hwords : h.Words)
    (hlow : h.InLowerHalf) (hfile : h.pFilesz ≤ h.pMemsz) (hcount : count ≤ h.pFilesz) :
    SafeLog ([.mapped i h.pVaddr (regionRounds h.pVaddr h.pMemsz)] ++
      ([.wrote i h.pVaddr count] ++
        [.wrote i (h.pVaddr + h.pFilesz) (h.pMemsz - h.pFilesz)])) where
  lower j vaddr pages hmem k hk := by
    simp only [List.cons_append, List.nil_append, List.mem_cons, LoadEvent.mapped.injEq,
      reduceCtorEq, List.not_mem_nil, or_false] at hmem
    obtain ⟨-, rfl, rfl⟩ := hmem
    exact Elf64Phdr.round_lt hwords hlow k hk
  inside j addr n hmem k hk := by
    simp only [List.cons_append, List.nil_append, List.mem_cons, LoadEvent.wrote.injEq,
      reduceCtorEq, List.not_mem_nil, or_false, false_or] at hmem
    obtain ⟨j', hj', hbyte⟩ : ∃ j', j' < h.pMemsz ∧ addr + k = h.pVaddr + j' := by
      rcases hmem with ⟨-, rfl, rfl⟩ | ⟨-, rfl, rfl⟩
      · exact ⟨k, by omega, rfl⟩
      · exact ⟨h.pFilesz + k, by omega, by omega⟩
    have hi : j = i := by
      rcases hmem with ⟨rfl, -⟩ | ⟨rfl, -⟩ <;> rfl
    subst hi
    have hlt := Elf64Phdr.byte_lt hlow hj'
    rw [lowerHalf] at hlt
    refine ⟨h.pVaddr, _, List.mem_append_left _ List.mem_cons_self, ?_⟩
    rw [hbyte, Nat.mod_eq_of_lt (by omega), Elf64Phdr.inPages_iff hwords hlow]
    exact Elf64Phdr.hasPage_byte hj'

/-- The run of a segment once `alloc_region` has mapped its pages. -/
theorem loadSegment_alloc (file : List Byte) (breakAddr : Nat) {s₀ : PhysMem}
    (hne : h.pVaddr ≠ 0)
    (halloc : allocRegion64 s root h.pVaddr h.pMemsz (segmentFlags h nx) = .ok s₀) :
    (loadSegment root file nx i h s breakAddr).log =
        [.mapped i h.pVaddr (regionRounds h.pVaddr h.pMemsz)] ++
          (fillSegment root file i h s₀).log ∧
      (loadSegment root file nx i h s breakAddr).result =
        (fillSegment root file i h s₀).result.map
          fun s => (s, some (nextBreak h breakAddr)) := by
  have hresult : (allocSegment i s root h.pVaddr h.pMemsz
      (segmentFlags h nx)).result = .ok s₀ := by
    rw [allocSegment, halloc]
  have hlog : (allocSegment i s root h.pVaddr h.pMemsz (segmentFlags h nx)).log =
      [.mapped i h.pVaddr (regionRounds h.pVaddr h.pMemsz)] := by
    rw [allocSegment, regionDone_of_ok halloc]
  rw [loadSegment, LoadRun.bind_of_ok hresult, hlog]
  simp only [if_neg hne]
  generalize fillSegment root file i h s₀ = fill
  cases hfill : fill.result with
  | error stop =>
      rw [LoadRun.bind_of_error hfill]
      exact ⟨rfl, rfl⟩
  | ok s₁ =>
      rw [LoadRun.bind_of_ok hfill]
      exact ⟨by simp [Pure.pure, LoadRun.pure], rfl⟩

theorem fillSegment_ok (file : List Byte) (i : Nat) {s₀ : PhysMem} (hwords : h.Words)
    (hlow : h.InLowerHalf) (hfile : h.pFilesz ≤ h.pMemsz)
    (hc : Counted s held ((4, root) :: rest)) (hu : UserData s root rest)
    (halloc : allocRegion64 s root h.pVaddr h.pMemsz (segmentFlags h nx) = .ok s₀) :
    ∃ s₂, (fillSegment root file i h s₀).result = .ok s₂ ∧
      (∃ m, s₂ = { s₀ with mem := m }) ∧
      (fillSegment root file i h s₀).log =
        [.wrote i h.pVaddr (readFile file h.pOffset h.pFilesz).length] ++
          [.wrote i (h.pVaddr + h.pFilesz) (h.pMemsz - h.pFilesz)] ∧
      SegmentLoaded root rest held h (readFile file h.pOffset h.pFilesz) s s₂ := by
  have hdata := readFile_length_le file h.pOffset h.pFilesz
  obtain ⟨hstart, hcount⟩ := Elf64Phdr.zeroFill_eq hwords hlow hfile
  rw [fillSegment, hstart, hcount]
  generalize readFile file h.pOffset h.pFilesz = data at hdata ⊢
  obtain ⟨s₁, s₂, hs₁, hs₂, hglobals, hloaded⟩ :=
    segmentLoaded hwords hlow hfile hdata hc hu halloc
  have hresult₁ : (writeSegment i root h.pVaddr data.length (data.getD · 0)
      s₀).result = .ok s₁ := by
    rw [writeSegment, hs₁]
  have hresult₂ : (writeSegment i root (h.pVaddr + h.pFilesz)
      (h.pMemsz - h.pFilesz) (fun _ => 0) s₁).result = .ok s₂ := by
    rw [writeSegment, hs₂]
  rw [LoadRun.bind_of_ok hresult₁]
  exact ⟨s₂, hresult₂, hglobals, rfl, hloaded⟩

/-- A well placed segment of unmapped pages is loaded, unless memory runs out or its
address is null. -/
theorem loadSegment_spec (file : List Byte) (nx : Bool) (i breakAddr : Nat)
    (hwords : h.Words) (hlow : h.InLowerHalf) (hfile : h.pVaddr ≠ 0 → h.pFilesz ≤ h.pMemsz)
    (hc : Counted s held ((4, root) :: rest)) (hu : UserData s root rest)
    (habs : ∀ a < lowerHalf, h.HasPage (a / pageSize) → pte s root a = none) :
    SafeLog (loadSegment root file nx i h s breakAddr).log ∧
      ((∃ reason, (loadSegment root file nx i h s breakAddr).result =
          .error (.panic reason) ∧ reason ≠ .alreadyMapped) ∨
        (∃ s', (loadSegment root file nx i h s breakAddr).result = .ok (s', none) ∧
          h.pVaddr = 0) ∨
        ∃ s', (loadSegment root file nx i h s breakAddr).result =
            .ok (s', some (nextBreak h breakAddr)) ∧ h.pVaddr ≠ 0 ∧
          SegmentLoaded root rest held h (readFile file h.pOffset h.pFilesz) s s') := by
  have hsafe := safeLog_alloc i s root nx hwords hlow
  cases halloc : allocRegion64 s root h.pVaddr h.pMemsz (segmentFlags h nx) with
  | error reason =>
      have hresult : (allocSegment i s root h.pVaddr h.pMemsz
          (segmentFlags h nx)).result = .error (.panic reason) := by
        rw [allocSegment, halloc]
      rw [loadSegment, LoadRun.bind_of_error hresult]
      refine ⟨hsafe, Or.inl ⟨reason, rfl, ?_⟩⟩
      rintro rfl
      obtain ⟨a, ha, hin, hne⟩ := allocRegion64_alreadyMapped hc hu
        (Elf64Phdr.round_lt hwords hlow) halloc
      exact hne (habs a ha ((Elf64Phdr.inPages_iff hwords hlow a).mp hin))
  | ok s₀ =>
      by_cases hnull : h.pVaddr = 0
      · have hresult : (allocSegment i s root h.pVaddr h.pMemsz
            (segmentFlags h nx)).result = .ok s₀ := by
          rw [allocSegment, halloc]
        rw [loadSegment, LoadRun.bind_of_ok hresult]
        simp only [if_pos hnull]
        exact ⟨hsafe.append .nil, Or.inr (Or.inl ⟨s₀, rfl, hnull⟩)⟩
      · obtain ⟨s₂, hfill, -, hlog, hloaded⟩ :=
          fillSegment_ok file i hwords hlow (hfile hnull) hc hu halloc
        obtain ⟨hlog', hresult⟩ := loadSegment_alloc (i := i) file breakAddr hnull halloc
        rw [hlog', hresult, hfill, hlog]
        exact ⟨safeLog_segment i hwords hlow (hfile hnull)
          (readFile_length_le file h.pOffset h.pFilesz),
          Or.inr (Or.inr ⟨s₂, rfl, hnull, hloaded⟩)⟩

end Segment

/-! ### The whole file -/

/-- The `PT_LOAD` headers of a file. -/
def loadHeaders (file : List Byte) (stack : StackBytes) : List Elf64Phdr :=
  (programHeaders file stack).filter (·.pType == ptLoad)

/-- Headers up to the first one at address zero, where `load_elf` gives up. -/
def uptoNull : List Elf64Phdr → List Elf64Phdr
  | [] => []
  | h :: hs => if h.pVaddr = 0 then [h] else h :: uptoNull hs

theorem uptoNull_eq_self {hs : List Elf64Phdr} (hne : ∀ h ∈ hs, h.pVaddr ≠ 0) :
    uptoNull hs = hs := by
  induction hs with
  | nil => rfl
  | cons h hs ih =>
      obtain ⟨hh, hrest⟩ := List.forall_mem_cons.mp hne
      rw [uptoNull, if_neg hh, ih hrest]

/-- What `load_elf` takes for granted of the segments it loads; from one at address zero
it copies nothing. -/
structure WellPlaced (hs : List Elf64Phdr) : Prop where
  lower : ∀ h ∈ hs, h.InLowerHalf
  file_le : ∀ h ∈ hs, h.pVaddr ≠ 0 → h.pFilesz ≤ h.pMemsz
  apart : hs.Pairwise Elf64Phdr.Apart

/-- The pages of the lower half that are mapped are those of the segments `done`. -/
structure Loading (root : Nat) (rest : List (Nat × Nat)) (held : Nat → Nat)
    (done : List Elf64Phdr) (s : PhysMem) : Prop where
  counted : Counted s held ((4, root) :: rest)
  userData : UserData s root rest
  mapped : ∀ a < lowerHalf, pte s root a ≠ none ↔ ∃ h ∈ done, h.HasPage (a / pageSize)

/-- The run keeps to its segments, and does not stop but for a panic that is not about
two that share a page. -/
structure SafeLoad {α : Type} (run : LoadRun α) : Prop where
  log : SafeLog run.log
  stops : ∀ stop, run.result = .error stop →
    ∃ reason, stop = .panic reason ∧ reason ≠ .alreadyMapped

theorem SafeLoad.noOverlap {α : Type} {run : LoadRun α} (h : SafeLoad run) :
    run.result ≠ .error (.panic .alreadyMapped) := by
  intro hstop
  obtain ⟨reason, heq, hne⟩ := h.stops _ hstop
  cases heq
  exact hne rfl

theorem SafeLoad.pure {α : Type} (a : α) : SafeLoad (Pure.pure a : LoadRun α) :=
  ⟨.nil, nofun⟩

theorem Loading.next {done : List Elf64Phdr} {h : Elf64Phdr} {data : List Byte}
    (hl : Loading root rest held done s)
    (hloaded : SegmentLoaded root rest held h data s s') :
    Loading root rest held (h :: done) s' where
  counted := hloaded.counted
  userData := hloaded.userData
  mapped a ha := by
    rw [hloaded.mapped a ha, hl.mapped a ha]
    simp only [List.mem_cons, exists_eq_or_imp]

theorem Loading.unmapped {done : List Elf64Phdr} {h : Elf64Phdr}
    (hl : Loading root rest held done s) (hapart : ∀ h' ∈ done, h'.Apart h) :
    ∀ a < lowerHalf, h.HasPage (a / pageSize) → pte s root a = none := by
  intro a ha hpage
  by_contra hne
  obtain ⟨h', hmem, hpage'⟩ := (hl.mapped a ha).mp hne
  exact hapart h' hmem _ ⟨hpage', hpage⟩

/-- Well placed headers are loaded safely after well placed headers. -/
theorem loadSegments_safe (root : Nat) (rest : List (Nat × Nat)) (held : Nat → Nat)
    (file : List Byte) (nx : Bool) : ∀ (phdrs : List Elf64Phdr) (i : Nat) (s : PhysMem)
    (breakAddr : Nat) (done : List Elf64Phdr), Loading root rest held done s →
    (∀ h ∈ phdrs, h.Words) → WellPlaced (uptoNull (phdrs.filter (·.pType == ptLoad))) →
    (∀ h ∈ done, ∀ h' ∈ uptoNull (phdrs.filter (·.pType == ptLoad)), h.Apart h') →
    SafeLoad (loadSegments root file nx i phdrs s breakAddr)
  | [], _, _, _, _, _, _, _, _ => SafeLoad.pure _
  | h :: phdrs, i, s, breakAddr, done, hl, hwords, hplaced, hapart => by
      have hwords' : ∀ h' ∈ phdrs, h'.Words :=
        fun h' hmem => hwords h' (List.mem_cons_of_mem _ hmem)
      rw [loadSegments]
      split
      · rename_i htype
        rw [List.filter_cons_of_pos (by simpa using htype), uptoNull] at hplaced hapart
        have hmem : h ∈ if h.pVaddr = 0 then [h]
            else h :: uptoNull (phdrs.filter (·.pType == ptLoad)) := by
          split <;> exact List.mem_cons_self
        obtain ⟨hlog, hcases⟩ := loadSegment_spec file nx i breakAddr
          (hwords h List.mem_cons_self) (hplaced.lower h hmem) (hplaced.file_le h hmem)
          hl.counted hl.userData (hl.unmapped fun h' hin => hapart h' hin h hmem)
        obtain ⟨reason, hresult, hne⟩ | ⟨s', hresult, -⟩ |
          ⟨s', hresult, hnull, hloaded⟩ := hcases
        · rw [LoadRun.bind_of_error hresult]
          exact ⟨hlog, fun stop hstop => ⟨reason, (Except.error.inj hstop).symm, hne⟩⟩
        · rw [LoadRun.bind_of_ok hresult]
          exact ⟨hlog.append .nil, nofun⟩
        · rw [LoadRun.bind_of_ok hresult]
          rw [if_neg hnull] at hplaced hapart
          obtain ⟨hrest, hpairs⟩ := List.pairwise_cons.mp hplaced.apart
          have hsafe := loadSegments_safe root rest held file nx phdrs (i + 1) s'
            (nextBreak h breakAddr) (h :: done) (hl.next hloaded) hwords'
            ⟨fun h' hmem => hplaced.lower h' (List.mem_cons_of_mem _ hmem),
              fun h' hmem => hplaced.file_le h' (List.mem_cons_of_mem _ hmem), hpairs⟩
            (by
              intro h₁ hmem₁ h₂ hmem₂
              rcases List.mem_cons.mp hmem₁ with rfl | hmem₁
              · exact hrest h₂ hmem₂
              · exact hapart h₁ hmem₁ h₂ (List.mem_cons_of_mem _ hmem₂))
          exact ⟨hlog.append hsafe.log, hsafe.stops⟩
      · rename_i htype
        rw [List.filter_cons_of_neg (by simpa using htype)] at hplaced hapart
        exact loadSegments_safe root rest held file nx phdrs (i + 1) s breakAddr done hl
          hwords' hplaced hapart

/-- `load_elf` returns a null pointer. -/
def ReturnsNull (run : LoadRun Loaded) : Prop :=
  ∃ loaded, run.result = .ok loaded ∧ loaded.entry = 0

theorem EmptyLowerHalf.loading (he : EmptyLowerHalf s root rest held) :
    Loading root rest held [] s where
  counted := he.counted
  userData := .of_unmapped he.unmapped
  mapped a ha := by simp [he.unmapped a ha]

/-- A file with well placed segments is loaded safely, whatever the memory holds. -/
theorem loadElf_safe {file : List Byte} {stack : StackBytes} (nx : Bool)
    (hfit : HeadersFit file stack) (hplaced : WellPlaced (uptoNull (loadHeaders file stack)))
    (he : EmptyLowerHalf s root rest held) :
    SafeLoad (loadElf s root file stack nx) := by
  rw [loadElf, if_neg (not_not_intro hfit)]
  split
  · exact SafeLoad.pure _
  have hsafe := loadSegments_safe root rest held file nx (programHeaders file stack) 0 s 0
    [] he.loading (fun h hmem => programHeaders_words hmem) hplaced nofun
  cases hresult : (loadSegments root file nx 0 (programHeaders file stack) s 0).result with
  | error stop =>
      rw [LoadRun.bind_of_error hresult]
      refine ⟨hsafe.log, fun stop' hstop => ?_⟩
      cases hstop
      exact hsafe.stops stop hresult
  | ok r =>
      rw [LoadRun.bind_of_ok hresult]
      obtain ⟨s', loaded⟩ := r
      cases loaded with
      | none => exact ⟨hsafe.log.append .nil, nofun⟩
      | some breakAddr => exact ⟨hsafe.log.append .nil, nofun⟩

end GlitchedOS
