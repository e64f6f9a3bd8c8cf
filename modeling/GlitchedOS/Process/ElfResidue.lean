/-
What is left of old memory in the pages of a program.  `alloc_region` hands out frames as
they are, so a byte of a segment's pages that neither the file nor the `memset` reaches is
what the frame held before.  Where every segment fills its pages, two runs of `load_elf`
that start from different contents of free frames end with the same bytes.
-/
import GlitchedOS.Paging.ExactRegion
import GlitchedOS.Process.ElfTrust

namespace GlitchedOS

open Radix

variable {s s' : PhysMem} {held : Nat → Nat} {rest : List (Nat × Nat)} {root : Nat}
  {file : List Byte} {stack : StackBytes} {nx : Bool} {h : Elf64Phdr} {done : List Elf64Phdr}

/-! ### States that differ in free frames -/

/-- The two states differ in nothing but the contents of free frames. -/
def SameInUse (s s' : PhysMem) : Prop :=
  ∃ m, s' = { s with mem := m } ∧
    ∀ f, ¬ (f < s.usablePageCount ∧ s.memoryBitmap f = 0) → m f = s.mem f

theorem EmptyLowerHalf.sameInUse (he : EmptyLowerHalf s root rest held) (hsame : SameInUse s s') :
    EmptyLowerHalf s' root rest held := by
  obtain ⟨m, rfl, hmem⟩ := hsame
  have hagree : ∀ f, 0 < forestTables pageFormat s.mem ((4, root) :: rest) f →
      ∀ i, m f i = s.mem f i := by
    intro f hf i
    rw [hmem]
    rintro ⟨hlt, hfree⟩
    have hcount := he.counted.exact f hlt
    omega
  refine ⟨he.counted.memCongr hagree rfl rfl, fun a ha => ?_⟩
  rw [← he.unmapped a ha]
  refine leafWord_congr pageFormat (vpath_inRange ha) fun f hf => hagree f ?_
  exact Nat.lt_of_lt_of_le hf
    (tableCount_le_forestTables pageFormat s.mem (x := (4, root)) List.mem_cons_self f)

theorem TableTree.sameInUse (ht : TableTree s 4 root) (hsame : SameInUse s s') :
    TableTree s' 4 root := by
  obtain ⟨m, rfl, hmem⟩ := hsame
  have hagree : ∀ f, 0 < tableCount wholeFormat s.mem 4 root f → ∀ i, m f i = s.mem f i := by
    intro f hf i
    rw [hmem]
    rintro ⟨hlt, hfree⟩
    exact ht.used f hlt hf hfree
  have hcount : ∀ f, tableCount wholeFormat m 4 root f = tableCount wholeFormat s.mem 4 root f :=
    fun f => weight_congr wholeFormat _ _ hagree
  refine ⟨fun f => ?_, fun f hf hpos => ?_⟩
  · rw [hcount]
    exact ht.once f
  · rw [hcount] at hpos
    exact ht.used f hf hpos

/-- `load_elf` has accepted the file. -/
def LoadAccepted (run : LoadRun Loaded) (loaded : Loaded) : Prop :=
  run.result = .ok loaded ∧ loaded.entry ≠ 0

/-- What a program finds at `a`: a byte of the file, or zero behind them. -/
def segmentByte (file : List Byte) (h : Elf64Phdr) (a : Nat) : Byte :=
  (readFile file h.pOffset h.pFilesz).getD (a - h.pVaddr) 0

/-- A run that accepts the file ends with bytes of the file and zeros behind them in the
pages of the lower half, whatever the memory held before. -/
def HoldsOwnBytes (file : List Byte) (stack : StackBytes) (nx : Bool) : Prop :=
  ∀ s root rest held, EmptyLowerHalf s root rest held →
    ∀ t, LoadAccepted (loadElf s root file stack nx) t →
      ∀ a < lowerHalf, ∀ b, virtByte t.phys root a = some b →
        ∃ h ∈ loadHeaders file stack, h.HasPage (a / pageSize) ∧ b = segmentByte file h a

/-- Two runs that accept the file, from states that differ in free frames only, end with the
same bytes in the pages of the lower half. -/
def LeaksNothing (file : List Byte) (stack : StackBytes) (nx : Bool) : Prop :=
  ∀ s₁ s₂ root rest held, EmptyLowerHalf s₁ root rest held → SameInUse s₁ s₂ →
    ∀ t₁ t₂, LoadAccepted (loadElf s₁ root file stack nx) t₁ →
      LoadAccepted (loadElf s₂ root file stack nx) t₂ →
      ∀ a < lowerHalf, virtByte t₁.phys root a = virtByte t₂.phys root a

/-! ### Segments that fill their pages -/

/-- The segment is whole pages of the lower half, and the file has its part of it. -/
structure Elf64Phdr.Fills (file : List Byte) (h : Elf64Phdr) : Prop where
  lower : h.InLowerHalf
  file_le : h.pFilesz ≤ h.pMemsz
  whole : (readFile file h.pOffset h.pFilesz).length = h.pFilesz
  first : h.pVaddr % pageSize = 0
  last : h.pMemsz % pageSize = 0

theorem Elf64Phdr.Fills.inside (hfills : h.Fills file) {a : Nat}
    (hpage : h.HasPage (a / pageSize)) :
    h.pVaddr ≤ a ∧ a < h.pVaddr + h.pMemsz := by
  have hfirst := hfills.first
  have hlast := hfills.last
  rw [Elf64Phdr.HasPage, Elf64Phdr.firstPage, Elf64Phdr.endPage] at hpage
  rw [pageSize] at *
  omega

theorem SegmentLoaded.filled (hfills : h.Fills file)
    (hloaded : SegmentLoaded root rest held h (readFile file h.pOffset h.pFilesz) s s')
    {a : Nat} (hpage : h.HasPage (a / pageSize)) :
    virtByte s' root a = some (segmentByte file h a) := by
  obtain ⟨hlo, hhi⟩ := hfills.inside hpage
  have haddr : h.pVaddr + (a - h.pVaddr) = a := Nat.add_sub_cancel' hlo
  by_cases hin : a - h.pVaddr < (readFile file h.pOffset h.pFilesz).length
  · rw [← haddr, hloaded.file _ hin, segmentByte, Nat.add_sub_cancel_left]
  · have hzero := hloaded.zero (a - h.pVaddr) (by rw [← hfills.whole]; omega) (by omega)
    rw [haddr] at hzero
    rw [hzero, segmentByte, List.getD_eq_getElem?_getD,
      List.getElem?_eq_none (Nat.not_lt.mp hin), Option.getD_none]

/-- The segments `done` are loaded, and every byte of their pages is the file's. -/
structure FilledSegments (file : List Byte) (root : Nat) (rest : List (Nat × Nat))
    (held : Nat → Nat)
    (done : List Elf64Phdr) (s : PhysMem) : Prop extends Loading root rest held done s where
  bytes : ∀ h ∈ done, ∀ a < lowerHalf, h.HasPage (a / pageSize) →
    virtByte s root a = some (segmentByte file h a)

theorem FilledSegments.next (hf : FilledSegments file root rest held done s) (hfills : h.Fills file)
    (hloaded : SegmentLoaded root rest held h (readFile file h.pOffset h.pFilesz) s s') :
    FilledSegments file root rest held (h :: done) s' where
  toLoading := hf.toLoading.next hloaded
  bytes h' hmem a ha hpage := by
    rcases List.mem_cons.mp hmem with rfl | hmem
    · exact hloaded.filled hfills hpage
    · have hmapped := (hf.mapped a ha).mpr ⟨h', hmem, hpage⟩
      rw [hloaded.other a ha fun hin => hmapped (hloaded.fresh a ha hin)]
      exact hf.bytes h' hmem a ha hpage

theorem loadSegment_ok {i breakAddr : Nat} {loaded : Nat} (hwords : h.Words)
    (hlow : h.InLowerHalf) (hfile : h.pFilesz ≤ h.pMemsz)
    (hc : Counted s held ((4, root) :: rest)) (hu : UserData s root rest)
    (hok : (loadSegment root file nx i h s breakAddr).result = .ok (s', some loaded)) :
    ∃ s₀, allocRegion64 s root h.pVaddr h.pMemsz (segmentFlags h nx) = .ok s₀ ∧
      (fillSegment root file i h s₀).result = .ok s' ∧
      SegmentLoaded root rest held h (readFile file h.pOffset h.pFilesz) s s' := by
  cases halloc : allocRegion64 s root h.pVaddr h.pMemsz (segmentFlags h nx) with
  | error reason =>
      rw [loadSegment, LoadRun.bind_of_error (by rw [allocSegment, halloc])] at hok
      cases hok
  | ok s₀ =>
      by_cases hnull : h.pVaddr = 0
      · have hresult : (allocSegment i s root h.pVaddr h.pMemsz
            (segmentFlags h nx)).result = .ok s₀ := by
          rw [allocSegment, halloc]
        rw [loadSegment, LoadRun.bind_of_ok hresult] at hok
        simp only [if_pos hnull] at hok
        cases hok
      · obtain ⟨s₂, hfill, -, -, hloaded⟩ :=
          fillSegment_ok file i hwords hlow hfile hc hu halloc
        rw [(loadSegment_alloc file breakAddr hnull halloc).2, hfill] at hok
        cases hok
        exact ⟨s₀, rfl, hfill, hloaded⟩

/-- Segments that fill their pages, loaded one after another. -/
theorem loadSegments_filled (root : Nat) (rest : List (Nat × Nat)) (held : Nat → Nat)
    (file : List Byte) (nx : Bool) : ∀ (phdrs : List Elf64Phdr) (i : Nat) (s : PhysMem)
    (breakAddr : Nat) (done : List Elf64Phdr), FilledSegments file root rest held done s →
    (∀ h ∈ phdrs, h.Words) → (∀ h ∈ phdrs.filter (·.pType == ptLoad), h.Fills file) →
    ∀ s' loaded,
      (loadSegments root file nx i phdrs s breakAddr).result = .ok (s', some loaded) →
      ∃ done', FilledSegments file root rest held done' s' ∧
        ∀ h, h ∈ done' ↔ h ∈ done ∨ h ∈ phdrs.filter (·.pType == ptLoad)
  | [], _, _, _, done, hf, _, _, s', loaded, hok => by
      cases hok
      exact ⟨done, hf, fun h => by simp⟩
  | h :: phdrs, i, s, breakAddr, done, hf, hwords, hfills, s', loaded, hok => by
      have hwords' : ∀ h' ∈ phdrs, h'.Words :=
        fun h' hmem => hwords h' (List.mem_cons_of_mem _ hmem)
      rw [loadSegments] at hok
      by_cases htype : h.pType = ptLoad
      · have hfilter : (h :: phdrs).filter (·.pType == ptLoad) =
            h :: phdrs.filter (·.pType == ptLoad) :=
          List.filter_cons_of_pos (by simpa using htype)
        rw [if_pos htype] at hok
        rw [hfilter] at hfills ⊢
        have hfirst := hfills h List.mem_cons_self
        cases hresult : (loadSegment root file nx i h s breakAddr).result with
        | error stop =>
            rw [LoadRun.bind_of_error hresult] at hok
            cases hok
        | ok r =>
            rw [LoadRun.bind_of_ok hresult] at hok
            obtain ⟨s₁, breakAddr'⟩ := r
            cases breakAddr' with
            | none => cases hok
            | some breakAddr' =>
                obtain ⟨-, -, -, hloaded⟩ := loadSegment_ok (hwords h List.mem_cons_self)
                  hfirst.lower hfirst.file_le hf.counted hf.userData hresult
                obtain ⟨done', hf', hmem⟩ := loadSegments_filled root rest held file nx phdrs
                  (i + 1) s₁ breakAddr' (h :: done) (hf.next hfirst hloaded) hwords'
                  (fun h' hin => hfills h' (List.mem_cons_of_mem _ hin)) s' loaded hok
                refine ⟨done', hf', fun h' => ?_⟩
                rw [hmem, List.mem_cons, List.mem_cons]
                tauto
      · rw [if_neg htype] at hok
        rw [List.filter_cons_of_neg (by simpa using htype)] at hfills ⊢
        exact loadSegments_filled root rest held file nx phdrs (i + 1) s breakAddr done hf
          hwords' hfills s' loaded hok

theorem LoadAccepted.segments {loaded : Loaded}
    (h : LoadAccepted (loadElf s root file stack nx) loaded) :
    ∃ breakAddr, (loadSegments root file nx 0 (programHeaders file stack) s 0).result =
      .ok (loaded.phys, some breakAddr) := by
  obtain ⟨hok, hentry⟩ := h
  rw [loadElf] at hok
  split at hok
  · cases hok
    exact absurd rfl hentry
  split at hok
  · cases hok
  cases hresult : (loadSegments root file nx 0 (programHeaders file stack) s 0).result with
  | error stop =>
      rw [LoadRun.bind_of_error hresult] at hok
      cases hok
  | ok r =>
      rw [LoadRun.bind_of_ok hresult] at hok
      obtain ⟨s', breakAddr⟩ := r
      cases breakAddr with
      | none =>
          cases hok
          exact absurd rfl hentry
      | some breakAddr =>
          cases hok
          exact ⟨breakAddr, rfl⟩

theorem LoadAccepted.filled {loaded : Loaded}
    (h : LoadAccepted (loadElf s root file stack nx) loaded)
    (he : EmptyLowerHalf s root rest held)
    (hfills : ∀ h ∈ loadHeaders file stack, h.Fills file) :
    ∃ done, FilledSegments file root rest held done loaded.phys ∧
      ∀ h, h ∈ done ↔ h ∈ loadHeaders file stack := by
  obtain ⟨breakAddr, hok⟩ := h.segments
  obtain ⟨done, hf, hmem⟩ := loadSegments_filled root rest held file nx
    (programHeaders file stack) 0 s 0 [] ⟨he.loading, nofun⟩
    (fun h hmem => programHeaders_words hmem) hfills _ _ hok
  exact ⟨done, hf, fun h => by rw [hmem, or_iff_right List.not_mem_nil]; rfl⟩

theorem Loading.virtByte_none {a : Nat} (hl : Loading root rest held done s) (ha : a < lowerHalf)
    (hout : ¬ ∃ h ∈ done, h.HasPage (a / pageSize)) : virtByte s root a = none := by
  have hpte : pte s root a = none := by
    by_contra hne
    exact hout ((hl.mapped a ha).mp hne)
  rw [virtByte, UserData.translate_eq ha, hpte]
  rfl

theorem holdsOwnBytes_of_fills (hfills : ∀ h ∈ loadHeaders file stack, h.Fills file) :
    HoldsOwnBytes file stack nx := by
  intro s root rest held he t haccept a ha b hb
  obtain ⟨done, hf, hmem⟩ := haccept.filled he hfills
  by_cases hpage : ∃ h ∈ done, h.HasPage (a / pageSize)
  · obtain ⟨h, hin, hpage⟩ := hpage
    rw [hf.bytes h hin a ha hpage] at hb
    exact ⟨h, (hmem h).mp hin, hpage, (Option.some.inj hb).symm⟩
  · rw [hf.virtByte_none ha hpage] at hb
    cases hb

/-- Where every segment fills its pages, nothing of old memory is left. -/
theorem leaksNothing_of_fills (hfills : ∀ h ∈ loadHeaders file stack, h.Fills file) :
    LeaksNothing file stack nx := by
  intro s₁ s₂ root rest held he hsame t₁ t₂ h₁ h₂ a ha
  obtain ⟨done₁, hf₁, hmem₁⟩ := h₁.filled he hfills
  obtain ⟨done₂, hf₂, hmem₂⟩ := h₂.filled (he.sameInUse hsame) hfills
  by_cases hpage : ∃ h ∈ loadHeaders file stack, h.HasPage (a / pageSize)
  · obtain ⟨h, hmem, hpage⟩ := hpage
    rw [hf₁.bytes h ((hmem₁ h).mpr hmem) a ha hpage,
      hf₂.bytes h ((hmem₂ h).mpr hmem) a ha hpage]
  · rw [hf₁.virtByte_none ha (by simpa only [hmem₁] using hpage),
      hf₂.virtByte_none ha (by simpa only [hmem₂] using hpage)]

/-! ### Bytes that nothing reaches -/

/-- The stores for a segment reach `a`. -/
def Elf64Phdr.Reaches (file : List Byte) (h : Elf64Phdr) (a : Nat) : Prop :=
  (h.pVaddr ≤ a ∧ a < h.pVaddr + (readFile file h.pOffset h.pFilesz).length) ∨
    (h.pVaddr + h.pFilesz ≤ a ∧ a < h.pVaddr + h.pMemsz)

/-- A segment that does not fill its pages has a byte in them that nothing reaches. -/
theorem exists_unreached (hlow : h.InLowerHalf) (hfile : h.pFilesz ≤ h.pMemsz)
    (hnot : ¬ h.Fills file) :
    ∃ a < lowerHalf, h.HasPage (a / pageSize) ∧ ¬ h.Reaches file a := by
  have hlength := readFile_length_le file h.pOffset h.pFilesz
  simp only [Elf64Phdr.Reaches]
  by_cases hfirst : h.pVaddr % pageSize = 0
  · have hsize : h.pMemsz ≠ 0 := by
      intro hzero
      have hnone : h.pFilesz = 0 := Nat.le_zero.mp (hzero ▸ hfile)
      exact hnot ⟨hlow, hfile, by omega, hfirst, by rw [hzero]; decide⟩
    have hlow' := hlow.resolve_right fun hzero => hsize hzero.1
    by_cases hlast : h.pMemsz % pageSize = 0
    · -- the file ends within the segment
      have hshort : (readFile file h.pOffset h.pFilesz).length < h.pFilesz :=
        Nat.lt_of_le_of_ne hlength fun hwhole => hnot ⟨hlow, hfile, hwhole, hfirst, hlast⟩
      exact ⟨h.pVaddr + (readFile file h.pOffset h.pFilesz).length, by omega,
        Elf64Phdr.hasPage_byte (by omega), by omega⟩
    · refine ⟨h.pVaddr + h.pMemsz, ?_, ?_, by omega⟩
      · rw [lowerHalf] at *
        rw [pageSize] at *
        omega
      · rw [Elf64Phdr.HasPage, Elf64Phdr.firstPage, Elf64Phdr.endPage]
        rw [pageSize] at *
        omega
  · have hlow' := hlow.resolve_right fun hzero => hfirst hzero.2
    refine ⟨h.pVaddr / pageSize * pageSize, ?_, ?_, ?_⟩
    · rw [pageSize] at *
      omega
    · rw [Elf64Phdr.HasPage, Elf64Phdr.firstPage, Elf64Phdr.endPage]
      rw [pageSize] at *
      omega
    · rw [pageSize] at *
      omega

/-- The segments `done` are loaded from the state `s`; frames still free and bytes that no
store reaches are as they were. -/
structure Residue (file : List Byte) (root : Nat) (s : PhysMem) (done : List Elf64Phdr)
    (st : PhysMem) : Prop where
  tree : TableTree st 4 root
  usable : st.usablePageCount = s.usablePageCount
  bitmap : ∀ f, s.memoryBitmap f ≠ 0 → st.memoryBitmap f ≠ 0
  untouched : ∀ f < s.usablePageCount, st.memoryBitmap f = 0 → st.mem f = s.mem f
  left : ∀ h ∈ done, ∀ a < lowerHalf, h.HasPage (a / pageSize) → ¬ h.Reaches file a →
    ∃ f < s.usablePageCount, s.memoryBitmap f = 0 ∧
      virtByte st root a = some (s.byteAt f (a % pageSize))

theorem Residue.start (ht : TableTree s 4 root) : Residue file root s [] s :=
  ⟨ht, rfl, fun _ hf => hf, fun _ _ _ => rfl, nofun⟩

theorem fillSegment_stores {i : Nat} {s₀ s₂ : PhysMem} (hwords : h.Words) (hlow : h.InLowerHalf)
    (hfile : h.pFilesz ≤ h.pMemsz) (hfill : (fillSegment root file i h s₀).result = .ok s₂) :
    ∃ s₁, storeBytes root h.pVaddr ((readFile file h.pOffset h.pFilesz).getD · 0)
        (readFile file h.pOffset h.pFilesz).length s₀ = some s₁ ∧
      storeBytes root (h.pVaddr + h.pFilesz) (fun _ => 0) (h.pMemsz - h.pFilesz) s₁ =
        some s₂ := by
  obtain ⟨hstart, hcount⟩ := Elf64Phdr.zeroFill_eq hwords hlow hfile
  have hwrite : ∀ (addr count : Nat) (byte : Nat → Byte) (s : PhysMem),
      (writeSegment i root addr count byte s).result =
        (storeBytes root addr byte count s).elim (.error .fault) .ok := by
    intro addr count byte s
    rw [writeSegment]
    cases storeBytes root addr byte count s <;> rfl
  have hfirst := hwrite h.pVaddr (readFile file h.pOffset h.pFilesz).length
    ((readFile file h.pOffset h.pFilesz).getD · 0) s₀
  rw [fillSegment, hstart, hcount] at hfill
  cases hstores : storeBytes root h.pVaddr ((readFile file h.pOffset h.pFilesz).getD · 0)
      (readFile file h.pOffset h.pFilesz).length s₀ with
  | none =>
      rw [hstores] at hfirst
      rw [LoadRun.bind_of_error hfirst] at hfill
      cases hfill
  | some s₁ =>
      rw [hstores] at hfirst
      rw [LoadRun.bind_of_ok hfirst] at hfill
      have hsecond := (hwrite _ _ _ _).symm.trans hfill
      refine ⟨s₁, rfl, ?_⟩
      cases hstores' : storeBytes root (h.pVaddr + h.pFilesz) (fun _ => 0)
          (h.pMemsz - h.pFilesz) s₁ with
      | none =>
          rw [hstores'] at hsecond
          cases hsecond
      | some s₂' =>
          rw [hstores'] at hsecond
          cases hsecond
          rfl

theorem Residue.segment {st s₀ s₂ : PhysMem} {i : Nat} (hr : Residue file root s done st)
    (hl : Loading root rest held done st) (hwords : h.Words) (hlow : h.InLowerHalf)
    (hfile : h.pFilesz ≤ h.pMemsz)
    (halloc : allocRegion64 st root h.pVaddr h.pMemsz (segmentFlags h nx) = .ok s₀)
    (hfill : (fillSegment root file i h s₀).result = .ok s₂)
    (hloaded : SegmentLoaded root rest held h (readFile file h.pOffset h.pFilesz) st s₂) :
    Residue file root s (h :: done) s₂ := by
  have hround := Elf64Phdr.round_lt hwords hlow
  have hbuilt := allocRegion64_building hr.tree (fun k hk => ?_) halloc
  swap
  · have hlt := hround k hk
    refine ⟨Or.inl hlt, ?_⟩
    rw [lowerHalf] at hlt
    rw [pageSize] at *
    omega
  have hin := Elf64Phdr.inPages_iff hwords hlow
  have hunused : ∀ f, st.memoryBitmap f = 0 → s.memoryBitmap f = 0 := by
    intro f hf
    by_contra hused
    exact hr.bitmap f hused hf
  obtain ⟨s₁, hs₁, hs₂⟩ := fillSegment_stores hwords hlow hfile hfill
  obtain ⟨s₁', s₂', hs₁', hs₂', hsame, -, -, hother⟩ := storeSegment hwords hlow hfile
    (readFile_length_le file h.pOffset h.pFilesz) hbuilt.dataPages (fun a ha hpage => by
      obtain ⟨f, hpte, -⟩ := hbuilt.mapped a (Or.inl ha) ((hin a).mpr hpage)
      rw [hpte]
      exact ⟨⟨Or.inl ha, (hin a).mpr hpage⟩, Option.some_ne_none _⟩)
  obtain rfl := Option.some.inj (hs₁.symm.trans hs₁')
  obtain rfl := Option.some.inj (hs₂.symm.trans hs₂')
  obtain ⟨m, rfl⟩ := hsame.globals
  have htables : ∀ f, 0 < tableCount wholeFormat s₀.mem 4 root f → m f = s₀.mem f :=
    fun f hf => hsame.mem f (Or.inl hf)
  have hcount : ∀ f, tableCount wholeFormat m 4 root f =
      tableCount wholeFormat s₀.mem 4 root f :=
    fun f => weight_congr wholeFormat _ _ fun g hg i => congrFun (htables g hg) i
  refine ⟨⟨fun f => ?_, fun f hf hpos => ?_⟩, hbuilt.usable.trans hr.usable,
    fun f hf => hbuilt.bitmap f (hr.bitmap f hf), fun f hf hfree => ?_,
    fun h' hmem a ha hpage hreach => ?_⟩
  · rw [hcount]
    exact hbuilt.tree.once f
  · rw [hcount] at hpos
    exact hbuilt.tree.used f hf hpos
  · have hfree' : st.memoryBitmap f = 0 := by
      by_contra hused
      exact hbuilt.bitmap f hused hfree
    have hkept : m f = s₀.mem f := hsame.mem f (Or.inr hfree)
    exact hkept.trans ((hbuilt.untouched f (hr.usable ▸ hf) hfree).trans
      (hr.untouched f hf hfree'))
  · rcases List.mem_cons.mp hmem with rfl | hmem
    · obtain ⟨f, hpte, hlt, hfree, -, -, hcontent⟩ :=
        hbuilt.mapped a (Or.inl ha) ((hin a).mpr hpage)
      rw [hr.usable] at hlt
      refine ⟨f, hlt, hunused f hfree, ?_⟩
      rw [Elf64Phdr.Reaches, not_or] at hreach
      rw [hother a ⟨Or.inl ha, (hin a).mpr hpage⟩ (by omega), virtByte,
        UserData.translate_eq ha, hpte, Option.map_some, Option.map_some,
        (mapWord_spec (Nat.lt_of_lt_of_le hlt s.usable_le) _).2.1, PhysMem.byteAt, hcontent,
        hr.untouched f hlt hfree, PhysMem.byteAt]
    · have hmapped := (hl.mapped a ha).mpr ⟨h', hmem, hpage⟩
      rw [hloaded.other a ha fun hin => hmapped (hloaded.fresh a ha hin)]
      exact hr.left h' hmem a ha hpage hreach

/-- Segments loaded safely one after another, on a machine with frames for all of them. -/
theorem loadSegments_residue (root : Nat) (rest : List (Nat × Nat)) (held : Nat → Nat)
    (file : List Byte) (nx : Bool) (s : PhysMem) : ∀ (phdrs : List Elf64Phdr) (i : Nat)
    (st : PhysMem) (breakAddr : Nat) (done : List Elf64Phdr) (k : Nat),
    Plenty root rest held done k st → Residue file root s done st → (∀ h ∈ phdrs, h.Words) →
    (∀ h ∈ phdrs.filter (·.pType == ptLoad),
      h.Tame ∧ h.InLowerHalf ∧ h.pFilesz ≤ h.pMemsz) →
    SafeLoad (loadSegments root file nx i phdrs st breakAddr) →
    ∃ st' loaded done',
      (loadSegments root file nx i phdrs st breakAddr).result = .ok (st', some loaded) ∧
      Residue file root s done' st' ∧
      ∀ h, h ∈ done ∨ h ∈ phdrs.filter (·.pType == ptLoad) → h ∈ done'
  | [], _, st, breakAddr, done, _, _, hr, _, _, _ =>
      ⟨st, breakAddr, done, rfl, hr, fun h hmem => hmem.resolve_right (by simp)⟩
  | h :: phdrs, i, st, breakAddr, done, k, hp, hr, hwords, hplaced, hsafe => by
      have hwords' : ∀ h' ∈ phdrs, h'.Words :=
        fun h' hmem => hwords h' (List.mem_cons_of_mem _ hmem)
      have hw := hwords h List.mem_cons_self
      rw [loadSegments] at hsafe ⊢
      by_cases htype : h.pType = ptLoad
      · have hfilter : (h :: phdrs).filter (·.pType == ptLoad) =
            h :: phdrs.filter (·.pType == ptLoad) :=
          List.filter_cons_of_pos (by simpa using htype)
        rw [if_pos htype] at hsafe ⊢
        rw [hfilter] at hplaced ⊢
        obtain ⟨htame, hlow, hfile⟩ := hplaced h List.mem_cons_self
        obtain ⟨hfirst, hlater⟩ := hsafe.split (i := i)
          (fun e hmem => loadSegment_segment hmem) (by
            rintro ⟨s', loaded⟩ e hmem
            cases loaded with
            | none => cases hmem
            | some breakAddr' =>
                exact loadSegments_segment root file nx e phdrs (i + 1) s' breakAddr' hmem)
        obtain ⟨s', hresult, hp'⟩ := plenty_of_safe hp hw htame hlow hfile hfirst
        obtain ⟨s₀, halloc, hfill, hloaded⟩ := loadSegment_ok hw hlow hfile
          hp.loading.counted hp.loading.userData hresult
        obtain ⟨st', loaded, done', hok, hr', hmem'⟩ := loadSegments_residue root rest held file
          nx s phdrs (i + 1) s' (nextBreak h breakAddr) (h :: done) _ hp'
          (hr.segment hp.loading hw hlow hfile halloc hfill hloaded) hwords'
          (fun h' hmem => hplaced h' (List.mem_cons_of_mem _ hmem)) (hlater _ hresult)
        refine ⟨st', loaded, done', ?_, hr', fun h' hin => hmem' h' ?_⟩
        · rw [LoadRun.bind_of_ok hresult]
          exact hok
        · rw [List.mem_cons] at hin ⊢
          tauto
      · rw [if_neg htype] at hsafe ⊢
        rw [List.filter_cons_of_neg (by simpa using htype)] at hplaced ⊢
        exact loadSegments_residue root rest held file nx s phdrs (i + 1) st breakAddr done k hp
          hr hwords' hplaced hsafe

/-! ### A machine with frames for every page, whatever they hold -/

theorem Plenty.of_sameInUse (hsame : SameInUse largeMachine s) : Plenty 1 [] emptyHeld [] 2 s where
  loading := ((emptyMachine_empty (Nat.le_refl _) (by decide)).sameInUse hsame).loading
  roomy := by
    obtain ⟨m, rfl, -⟩ := hsame
    exact ⟨largeMachine_plenty.roomy.hint, largeMachine_plenty.roomy.free,
      largeMachine_plenty.roomy.low⟩
  frames := by
    have hle : (unmappedPages s 1).card ≤ lowerPages :=
      (Finset.card_filter_le _ _).trans (Nat.le_of_eq (Finset.card_range _))
    have hframes : s.usablePageCount = 2 ^ 40 := by
      obtain ⟨m, rfl, -⟩ := hsame
      rfl
    rw [hframes]
    rw [lowerPages] at hle
    omega

/-- A file that `load_elf` does not answer with a null pointer, and whose headers fit on
the kernel stack. -/
structure NonNull (file : List Byte) (stack : StackBytes) : Prop where
  compatible : isCompatibleBinary file stack = true
  fit : HeadersFit file stack
  entry : (readEhdr file stack.ehdr).eEntry ≠ 0
  vaddr : ∀ h ∈ loadHeaders file stack, h.pVaddr ≠ 0

theorem WellPlaced.tame (hplaced : WellPlaced (loadHeaders file stack))
    (hnull : NonNull file stack) : ∀ h ∈ loadHeaders file stack, h.Tame := by
  intro h hmem
  have hw := programHeaders_words (List.mem_filter.mp hmem).1
  have hvaddr := hw.vaddr
  have hfile := hplaced.file_le h hmem (hnull.vaddr h hmem)
  refine ⟨hnull.vaddr h hmem, ?_, ?_⟩
  · rcases hplaced.lower h hmem with hlow | ⟨hzero, halign⟩
    · rw [lowerHalf] at hlow
      rw [pageSize]
      omega
    · rw [pageSize] at *
      omega
  · rcases hplaced.lower h hmem with hlow | ⟨hzero, -⟩
    · rw [lowerHalf] at hlow
      omega
    · omega

/-- A file with well placed segments is accepted there, and leaves the bytes that nothing
reaches. -/
theorem accepts_residue (nx : Bool) (hnull : NonNull file stack)
    (hplaced : WellPlaced (loadHeaders file stack)) (hsame : SameInUse largeMachine s) :
    ∃ loaded done, LoadAccepted (loadElf s 1 file stack nx) loaded ∧
      Residue file 1 s done loaded.phys ∧ ∀ h ∈ loadHeaders file stack, h ∈ done := by
  have he : EmptyLowerHalf s 1 [] emptyHeld :=
    (emptyMachine_empty (Nat.le_refl _) (by decide)).sameInUse hsame
  have ht : TableTree s 4 1 := (emptyMachine_tree _).sameInUse hsame
  have hwords : ∀ h ∈ programHeaders file stack, h.Words := fun h hmem => programHeaders_words hmem
  have hsafe := loadSegments_safe 1 [] emptyHeld file nx (programHeaders file stack) 0 s 0 []
    he.loading hwords ((uptoNull_eq_self hnull.vaddr).symm ▸ hplaced) nofun
  obtain ⟨st, breakAddr, done, hok, hr, hmem⟩ := loadSegments_residue 1 [] emptyHeld file nx s
    (programHeaders file stack) 0 s 0 [] 2 (.of_sameInUse hsame) (.start ht) hwords
    (fun h hmem => ⟨hplaced.tame hnull h hmem, hplaced.lower h hmem,
      hplaced.file_le h hmem (hnull.vaddr h hmem)⟩)
    hsafe
  refine ⟨⟨st, (readEhdr file stack.ehdr).eEntry, some (pageAlign64 breakAddr)⟩, done,
    ⟨?_, hnull.entry⟩, hr, fun h hin => hmem h (Or.inr hin)⟩
  rw [loadElf, hnull.compatible, if_neg (not_not_intro hnull.fit), LoadRun.bind_of_ok hok]
  rfl

/-- The machine with the same word all over its free frames. -/
def markedMachine (w : Word) : PhysMem :=
  { largeMachine with mem := fun f _ => if 1 < f ∧ f < 2 ^ 40 then w else 0#64 }

theorem markedMachine_sameInUse (w : Word) : SameInUse largeMachine (markedMachine w) := by
  refine ⟨_, rfl, fun f hf => funext fun i => if_neg ?_⟩
  rintro ⟨hlo, hhi⟩
  exact hf ⟨hhi, if_neg (by omega)⟩

theorem markedMachine_byteAt (w : Word) {f : Nat} (hlt : f < largeMachine.usablePageCount)
    (hfree : largeMachine.memoryBitmap f = 0) (offset : Nat) :
    (markedMachine w).byteAt f offset = getByte w (offset % 8) := by
  have hlo : 1 < f := by
    by_contra hle
    have hone : largeMachine.memoryBitmap f = 1 := if_pos (by omega)
    rw [hone] at hfree
    cases hfree
  have hword : (markedMachine w).mem f (offset / 8) = w := if_pos ⟨hlo, hlt⟩
  rw [PhysMem.byteAt, hword]

/-- A file that leaks nothing fills the pages of its segments. -/
theorem fills_of_leaksNothing (hnull : NonNull file stack)
    (hplaced : WellPlaced (loadHeaders file stack)) (hleaks : LeaksNothing file stack nx) :
    ∀ h ∈ loadHeaders file stack, h.Fills file := by
  intro h hmem
  by_contra hnot
  obtain ⟨a, ha, hpage, hreach⟩ :=
    exists_unreached (hplaced.lower h hmem)
      (hplaced.file_le h hmem (hnull.vaddr h hmem)) hnot
  have hzeros := markedMachine_sameInUse 0#64
  have hones := markedMachine_sameInUse (BitVec.allOnes 64)
  obtain ⟨t₁, done₁, haccept₁, hr₁, hin₁⟩ := accepts_residue nx hnull hplaced hzeros
  obtain ⟨t₂, done₂, haccept₂, hr₂, hin₂⟩ := accepts_residue nx hnull hplaced hones
  obtain ⟨f₁, hlt₁, hfree₁, hbyte₁⟩ := hr₁.left h (hin₁ h hmem) a ha hpage hreach
  obtain ⟨f₂, hlt₂, hfree₂, hbyte₂⟩ := hr₂.left h (hin₂ h hmem) a ha hpage hreach
  have he : EmptyLowerHalf (markedMachine 0#64) 1 [] emptyHeld :=
    (emptyMachine_empty (Nat.le_refl _) (by decide)).sameInUse hzeros
  have hsame : SameInUse (markedMachine 0#64) (markedMachine (BitVec.allOnes 64)) := by
    obtain ⟨m, hm, hmem'⟩ := hones
    refine ⟨m, hm, fun f hf => (hmem' f hf).trans ?_⟩
    obtain ⟨m₀, hm₀, hmem₀⟩ := hzeros
    rw [hm₀]
    exact (hmem₀ f hf).symm
  have heq := hleaks _ _ 1 [] emptyHeld he hsame t₁ t₂ haccept₁ haccept₂ a ha
  rw [hbyte₁, hbyte₂, markedMachine_byteAt _ hlt₁ hfree₁, markedMachine_byteAt _ hlt₂ hfree₂] at heq
  have hall : ∀ k : Fin 8, getByte 0#64 k.1 ≠ getByte (BitVec.allOnes 64) k.1 := by decide
  exact hall ⟨a % pageSize % 8, Nat.mod_lt _ (by decide)⟩ (Option.some.inj heq)

/-- `load_elf` fills the pages of a program whose segments fill them with bytes of the file
and zeros, and leaves nothing of old memory there; of well placed files it leaves nothing
for no other. -/
theorem load_elf_leaks_nothing_iff (file : List Byte) (stack : StackBytes) (nx : Bool) :
    ((∀ h ∈ loadHeaders file stack, h.Fills file) →
        HoldsOwnBytes file stack nx ∧ LeaksNothing file stack nx) ∧
      (NonNull file stack → WellPlaced (loadHeaders file stack) →
        (LeaksNothing file stack nx ↔ ∀ h ∈ loadHeaders file stack, h.Fills file)) :=
  ⟨fun hfills => ⟨holdsOwnBytes_of_fills hfills, leaksNothing_of_fills hfills⟩, fun hnull hplaced =>
    ⟨fills_of_leaksNothing hnull hplaced, leaksNothing_of_fills⟩⟩

/-- A page of zeros leaves nothing of old memory, and sixteen bytes of zeros do. -/
theorem load_elf_leaks_nothing_page :
    LeaksNothing (elfFile 0x400000 [⟨ptLoad, pfX, 0, 0x400000, 0, 0x1000⟩]) zeroStack true ∧
      ¬ LeaksNothing (elfFile 0x400000 [⟨ptLoad, pfX, 0, 0x400000, 0, 16⟩]) zeroStack true := by
  have hpage : loadHeaders (elfFile 0x400000 [⟨ptLoad, pfX, 0, 0x400000, 0, 0x1000⟩]) zeroStack =
      [⟨ptLoad, pfX, 0, 0x400000, 0, 0x1000⟩] := by decide
  have hbytes : loadHeaders (elfFile 0x400000 [⟨ptLoad, pfX, 0, 0x400000, 0, 16⟩]) zeroStack =
      [⟨ptLoad, pfX, 0, 0x400000, 0, 16⟩] := by decide
  have hnull : NonNull (elfFile 0x400000 [⟨ptLoad, pfX, 0, 0x400000, 0, 16⟩]) zeroStack := by
    refine ⟨by decide, by decide, by decide, ?_⟩
    rw [hbytes]
    intro h hmem
    obtain rfl := List.mem_singleton.mp hmem
    decide
  have hplaced : WellPlaced (loadHeaders
      (elfFile 0x400000 [⟨ptLoad, pfX, 0, 0x400000, 0, 16⟩]) zeroStack) := by
    rw [hbytes]
    refine ⟨fun h hmem => ?_, fun h hmem => ?_, List.pairwise_singleton _ _⟩
    · obtain rfl := List.mem_singleton.mp hmem
      exact Or.inl (by decide)
    · obtain rfl := List.mem_singleton.mp hmem
      exact fun _ => Nat.zero_le _
  refine ⟨((load_elf_leaks_nothing_iff _ _ _).1 ?_).2, fun hleaks => ?_⟩
  · rw [hpage]
    intro h hmem
    obtain rfl := List.mem_singleton.mp hmem
    exact ⟨Or.inl (by decide), Nat.zero_le _, rfl, by decide, by decide⟩
  · have hfills := ((load_elf_leaks_nothing_iff _ _ _).2 hnull hplaced).mp hleaks
      ⟨ptLoad, pfX, 0, 0x400000, 0, 16⟩ (by rw [hbytes]; exact List.mem_singleton_self _)
    exact absurd hfills.last (by decide)

end GlitchedOS
