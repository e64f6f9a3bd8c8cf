/-
That `load_elf` needs what it takes for granted.  On a machine with frames for the
whole lower half a segment that is not well placed shows: a page of the upper half is
mapped, `alloc_region` panics on a page that is mapped already, or `memset` is given
nearly the whole address space to clear.
-/
import Mathlib.Order.Interval.Finset.Nat
import GlitchedOS.Process.ElfSafety

namespace GlitchedOS

open Radix

variable {s s' : PhysMem} {held : Nat → Nat} {rest : List (Nat × Nat)} {root : Nat}

/-! ### Pages not mapped yet -/

def lowerPages : Nat := 2 ^ 35

theorem page_lt {p : Nat} : p < lowerPages ↔ p * pageSize < lowerHalf := by
  rw [lowerPages, lowerHalf, pageSize]
  omega

/-- The pages of the lower half that are not mapped. -/
def unmappedPages (s : PhysMem) (root : Nat) : Finset Nat :=
  (Finset.range lowerPages).filter fun p => pte s root (p * pageSize) = none

theorem mem_unmappedPages {p : Nat} : p ∈ unmappedPages s root ↔
    p * pageSize < lowerHalf ∧ pte s root (p * pageSize) = none := by
  rw [unmappedPages, Finset.mem_filter, Finset.mem_range, page_lt]

theorem unmappedPages_card (first n : Nat)
    (hlow : ∀ p, first ≤ p → p < first + n → p * pageSize < lowerHalf)
    (hfresh : ∀ p, first ≤ p → p < first + n → pte s root (p * pageSize) = none)
    (hpte : ∀ p, p * pageSize < lowerHalf → (pte s' root (p * pageSize) = none ↔
      pte s root (p * pageSize) = none ∧ ¬ (first ≤ p ∧ p < first + n))) :
    (unmappedPages s' root).card + n = (unmappedPages s root).card := by
  have hsub : Finset.Ico first (first + n) ⊆ unmappedPages s root := by
    intro p hp
    obtain ⟨hlo, hhi⟩ := Finset.mem_Ico.mp hp
    exact mem_unmappedPages.mpr ⟨hlow p hlo hhi, hfresh p hlo hhi⟩
  have heq : unmappedPages s' root =
      unmappedPages s root \ Finset.Ico first (first + n) := by
    ext p
    rw [Finset.mem_sdiff, mem_unmappedPages, mem_unmappedPages, Finset.mem_Ico]
    constructor
    · rintro ⟨hp, hnone⟩
      obtain ⟨hold, hout⟩ := (hpte p hp).mp hnone
      exact ⟨⟨hp, hold⟩, hout⟩
    · rintro ⟨⟨hp, hold⟩, hout⟩
      exact ⟨hp, (hpte p hp).mpr ⟨hold, hout⟩⟩
  have hcard := Finset.card_sdiff_add_card_eq_card hsub
  rw [Nat.card_Ico, Nat.add_sub_cancel_left] at hcard
  rw [heq, hcard]

/-! ### Rounds on a machine with frames to spare -/

section Rounds

variable {vaddr : Nat} {flags : Flags} {k n : Nat}

/-- Rounds in the lower half that complete use up as many unmapped pages. -/
theorem rounds_le_unmapped (hc : Counted s held ((4, root) :: rest))
    (hu : UserData s root rest) (hlow : ∀ j < n, vaddr + j * pageSize < lowerHalf)
    {c : Cursor}
    (h : loopRounds (regionRound root vaddr flags) n (Cursor.start vaddr, s) =
      .ok (c, s')) : n ≤ (unmappedPages s root).card := by
  obtain ⟨-, hregion, -⟩ := regionRounds_spec hc hu hlow h
  have hsub : Finset.Ico (vaddr / pageSize) (vaddr / pageSize + n) ⊆
      unmappedPages s root := by
    intro p hp
    obtain ⟨hlo, hhi⟩ := Finset.mem_Ico.mp hp
    have hp : p * pageSize < lowerHalf := by
      have hlast := hlow (p - vaddr / pageSize) (by omega)
      rw [pageSize] at *
      omega
    have hpage : p * pageSize / pageSize = p := Nat.mul_div_cancel _ (by decide)
    have hpte := hregion.pte _ hp
    rw [if_pos (by rw [InPages, hpage]; exact ⟨hlo, hhi⟩)] at hpte
    exact mem_unmappedPages.mpr ⟨hp, hpte.1⟩
  have hcard := Finset.card_le_card hsub
  rwa [Nat.card_Ico, Nat.add_sub_cancel_left] at hcard

/-- Rounds of which all but perhaps the last are in the lower half complete, unless a
page is mapped already. -/
theorem rounds_outcome (flags : Flags) (m : Nat)
    (hc : Counted s held ((4, root) :: rest))
    (hu : UserData s root rest) (hroomy : Roomy s k)
    (hframes : k + 4 * ((unmappedPages s root).card + 1) ≤ s.usablePageCount)
    (hlow : ∀ j < n, vaddr + j * pageSize < lowerHalf) (hm : m ≤ n + 1) :
    loopRounds (regionRound root vaddr flags) m (Cursor.start vaddr, s) =
        .error .alreadyMapped ∨
      ∃ c s', loopRounds (regionRound root vaddr flags) m (Cursor.start vaddr, s) =
          .ok (c, s') ∧ Roomy s' (k + 4 * m) ∧
        s'.usablePageCount = s.usablePageCount := by
  by_cases hfew : m ≤ (unmappedPages s root).card + 1
  · obtain herror | ⟨c, s', hok, hroomy', husable, -⟩ :=
      regionRounds_roomy root vaddr flags (n := m) hroomy (by omega)
    · exact Or.inl herror
    · exact Or.inr ⟨c, s', hok, hroomy', husable⟩
  · left
    obtain herror | ⟨c, s', hok, -⟩ := regionRounds_roomy root vaddr flags
      (n := (unmappedPages s root).card + 1) hroomy hframes
    · exact loopRounds_error_of_le herror (by omega)
    · have hle := rounds_le_unmapped hc hu (fun j hj => hlow j (by omega)) hok
      omega

end Rounds

/-! ### One segment -/

/-- A header that does not make `load_elf` return a null pointer and whose sums do
not wrap. -/
structure Elf64Phdr.Tame (h : Elf64Phdr) : Prop where
  vaddr_ne : h.pVaddr ≠ 0
  noWrap : h.pVaddr + h.pMemsz + pageSize ≤ 2 ^ 64
  filesz_le : h.pFilesz ≤ 2 ^ 63

/-- The segments `done` are loaded, and there are frames for all that is left of the
lower half. -/
structure Plenty (root : Nat) (rest : List (Nat × Nat)) (held : Nat → Nat)
    (done : List Elf64Phdr) (k : Nat) (s : PhysMem) : Prop where
  loading : Loading root rest held done s
  roomy : Roomy s k
  frames : k + 4 * ((unmappedPages s root).card + 1) ≤ s.usablePageCount

theorem LoadRun.mem_bind_log {α β : Type} {x : LoadRun α} {e : LoadEvent}
    (h : e ∈ x.log) (f : α → LoadRun β) : e ∈ (x >>= f).log := by
  cases hresult : x.result with
  | error stop =>
      rw [LoadRun.bind_of_error hresult]
      exact h
  | ok a =>
      rw [LoadRun.bind_of_ok hresult]
      exact List.mem_append_left _ h

theorem mapped_mem_allocSegment (i : Nat) (s : PhysMem) (root vaddr size : Nat)
    (flags : Flags) : .mapped i vaddr (regionDone s root vaddr size flags) ∈
      (allocSegment i s root vaddr size flags).log :=
  List.mem_cons_self

theorem wrote_mem_writeSegment (i root addr count : Nat) (byte : Nat → Byte)
    (s : PhysMem) :
    .wrote i addr count ∈ (writeSegment i root addr count byte s).log :=
  List.mem_cons_self

section Segment

variable {h : Elf64Phdr} {done : List Elf64Phdr} {k : Nat}

theorem allocRegion64_of_rounds {vaddr size : Nat} {flags : Flags} {reason : Panic}
    (herror : loopRounds (regionRound root vaddr flags) (regionRounds vaddr size)
      (Cursor.start vaddr, s) = .error reason) :
    allocRegion64 s root vaddr size flags = .error reason := by
  rw [allocRegion64, herror]
  rfl

theorem region_outcome (flags : Flags) (hp : Plenty root rest held done k s) (hwords : h.Words)
    (hlow : h.InLowerHalf) :
    allocRegion64 s root h.pVaddr h.pMemsz flags = .error .alreadyMapped ∨
      ∃ s₀, allocRegion64 s root h.pVaddr h.pMemsz flags = .ok s₀ ∧
        Roomy s₀ (k + 4 * regionRounds h.pVaddr h.pMemsz) ∧
        s₀.usablePageCount = s.usablePageCount := by
  obtain herror | ⟨c, s₀, hok, hroomy, husable⟩ := rounds_outcome
    flags (regionRounds h.pVaddr h.pMemsz) hp.loading.counted hp.loading.userData hp.roomy hp.frames
    (Elf64Phdr.round_lt hwords hlow) (Nat.le_succ _)
  · exact Or.inl (allocRegion64_of_rounds herror)
  · right
    refine ⟨s₀, ?_, hroomy, husable⟩
    rw [allocRegion64, hok]
    rfl

/-- `alloc_region` of any other segment maps a page of the upper half. -/
theorem region_upper (flags : Flags) (hp : Plenty root rest held done k s) (htame : h.Tame)
    (hup : ¬ h.InLowerHalf) :
    allocRegion64 s root h.pVaddr h.pMemsz flags = .error .alreadyMapped ∨
      ∃ j < regionDone s root h.pVaddr h.pMemsz flags,
        lowerHalf ≤ h.pVaddr + j * pageSize := by
  have hwrap := htame.noWrap
  have hrounds := regionRounds_eq hwrap
  rw [Elf64Phdr.InLowerHalf, not_or, not_le] at hup
  -- `n` is the first round at an address of the upper half
  obtain ⟨n, hn, hhigh, hbelow⟩ : ∃ n < regionRounds h.pVaddr h.pMemsz,
      lowerHalf ≤ h.pVaddr + n * pageSize ∧
        ∀ j < n, h.pVaddr + j * pageSize < lowerHalf := by
    refine ⟨(lowerHalf - h.pVaddr + (pageSize - 1)) / pageSize, ?_, ?_, ?_⟩
    · rw [hrounds, pageRounds, pageAlign]
      rw [lowerHalf, pageSize] at *
      omega
    · rw [lowerHalf, pageSize]
      omega
    · rw [lowerHalf, pageSize]
      intro j hj
      omega
  obtain herror | ⟨c, s₀, hok, -⟩ := rounds_outcome flags (n + 1)
    hp.loading.counted hp.loading.userData hp.roomy hp.frames hbelow (Nat.le_refl _)
  · exact Or.inl (allocRegion64_of_rounds (loopRounds_error_of_le herror hn))
  · exact Or.inr ⟨n, le_loopDone hok hn, hhigh⟩

/-- A segment on which the loader is safe lies in the lower half. -/
theorem inLowerHalf_of_safe {file : List Byte} {nx : Bool} {i breakAddr : Nat}
    (hp : Plenty root rest held done k s) (htame : h.Tame)
    (hsafe : SafeLoad (loadSegment root file nx i h s breakAddr)) :
    h.InLowerHalf := by
  by_contra hup
  rw [loadSegment] at hsafe
  obtain herror | ⟨j, hj, hhigh⟩ :=
    region_upper (segmentFlags h nx) hp htame hup
  · have hresult : (allocSegment i s root h.pVaddr h.pMemsz
        (segmentFlags h nx)).result = .error (.panic .alreadyMapped) := by
      rw [allocSegment, herror]
    rw [LoadRun.bind_of_error hresult] at hsafe
    exact hsafe.noOverlap rfl
  · exact Nat.not_lt.mpr hhigh (hsafe.log.lower i _ _
      (LoadRun.mem_bind_log (mapped_mem_allocSegment _ _ _ _ _ _) _) j hj)

/-- `alloc_region` of a segment on which the loader is safe succeeds. -/
theorem alloc_of_safe {file : List Byte} {nx : Bool} {i breakAddr : Nat}
    (hp : Plenty root rest held done k s) (hwords : h.Words) (hlow : h.InLowerHalf)
    (hsafe : SafeLoad (loadSegment root file nx i h s breakAddr)) :
    ∃ s₀, allocRegion64 s root h.pVaddr h.pMemsz (segmentFlags h nx) = .ok s₀ ∧
      Roomy s₀ (k + 4 * regionRounds h.pVaddr h.pMemsz) ∧
      s₀.usablePageCount = s.usablePageCount := by
  obtain herror | hok := region_outcome (segmentFlags h nx) hp hwords hlow
  · exfalso
    rw [loadSegment] at hsafe
    have hresult : (allocSegment i s root h.pVaddr h.pMemsz
        (segmentFlags h nx)).result = .error (.panic .alreadyMapped) := by
      rw [allocSegment, herror]
    rw [LoadRun.bind_of_error hresult] at hsafe
    exact hsafe.noOverlap rfl
  · exact hok

/-- A run of stores that keeps to the pages of a segment does not pass the end of the
lower half. -/
theorem stores_inside {addr count : Nat} (hwords : h.Words) (hlow : h.InLowerHalf)
    (haddr : addr < 2 ^ 64) (hinside : ∀ j < count,
      InPages h.pVaddr (regionRounds h.pVaddr h.pMemsz) ((addr + j) % 2 ^ 64)) :
    count = 0 ∨ addr + count ≤ lowerHalf := by
  by_contra hcontra
  rw [not_or, not_le] at hcontra
  have hpages : ∀ a, InPages h.pVaddr (regionRounds h.pVaddr h.pMemsz) a →
      a < lowerHalf := by
    intro a hin
    have hlt := ((Elf64Phdr.inPages_iff hwords hlow a).mp hin).lt hlow
    rw [pageSize] at hlt
    omega
  by_cases hstart : lowerHalf ≤ addr
  · have hin := hpages _ (hinside 0 (by omega))
    rw [Nat.add_zero, Nat.mod_eq_of_lt haddr] at hin
    omega
  · have hin := hpages _ (hinside (lowerHalf - addr) (by omega))
    rw [Nat.add_sub_cancel' (by omega), lowerHalf] at hin
    omega

end Segment

section Safe

variable {file : List Byte} {nx : Bool} {i breakAddr : Nat} {h : Elf64Phdr}
  {done : List Elf64Phdr} {k : Nat}

/-- The stores of a segment on which the loader is safe keep to its pages. -/
theorem stores_of_safe (addr count : Nat) {s₀ : PhysMem} (hwords : h.Words)
    (hlow : h.InLowerHalf) (hne : h.pVaddr ≠ 0) (haddr : addr < 2 ^ 64)
    (halloc : allocRegion64 s root h.pVaddr h.pMemsz (segmentFlags h nx) = .ok s₀)
    (hsafe : SafeLoad (loadSegment root file nx i h s breakAddr))
    (hnew : ∀ vaddr pages,
      .mapped i vaddr pages ∉ (fillSegment root file i h s₀).log)
    (hmem : .wrote i addr count ∈ (fillSegment root file i h s₀).log) :
    (∀ j < count, InPages h.pVaddr (regionRounds h.pVaddr h.pMemsz)
      ((addr + j) % 2 ^ 64)) ∧ (count = 0 ∨ addr + count ≤ lowerHalf) := by
  have hlog := hsafe.log
  rw [(loadSegment_alloc (i := i) file breakAddr hne halloc).1] at hlog
  have hinside : ∀ j < count, InPages h.pVaddr (regionRounds h.pVaddr h.pMemsz)
      ((addr + j) % 2 ^ 64) := by
    intro j hj
    obtain ⟨vaddr, pages, hin, hpage⟩ :=
      hlog.inside i addr count (List.mem_append_right _ hmem) j hj
    rcases List.mem_append.mp hin with hin | hin
    · obtain ⟨-, rfl, rfl⟩ := LoadEvent.mapped.inj (List.mem_singleton.mp hin)
      exact hpage
    · exact absurd hin (hnew vaddr pages)
  exact ⟨hinside, stores_inside hwords hlow haddr hinside⟩

theorem fillSegment_mapped {vaddr pages : Nat} {s₀ : PhysMem} :
    .mapped i vaddr pages ∉ (fillSegment root file i h s₀).log := by
  rw [fillSegment]
  intro hmem
  cases hresult : (writeSegment i root h.pVaddr
      (readFile file h.pOffset h.pFilesz).length
      ((readFile file h.pOffset h.pFilesz).getD · 0) s₀).result with
  | error stop =>
      rw [LoadRun.bind_of_error hresult] at hmem
      cases List.mem_singleton.mp hmem
  | ok s₁ =>
      rw [LoadRun.bind_of_ok hresult] at hmem
      rcases List.mem_append.mp hmem with hmem | hmem
      · cases List.mem_singleton.mp hmem
      · cases List.mem_singleton.mp hmem

/-- A segment on which the loader is safe has no more bytes in the file than in
memory: else `memset` is given a length close to `2 ^ 64`. -/
theorem file_le_of_safe (hp : Plenty root rest held done k s) (hwords : h.Words)
    (hlow : h.InLowerHalf) (htame : h.Tame)
    (hsafe : SafeLoad (loadSegment root file nx i h s breakAddr)) :
    h.pFilesz ≤ h.pMemsz := by
  obtain ⟨s₀, halloc, -⟩ := alloc_of_safe hp hwords hlow hsafe
  have hstores := fun (addr count : Nat) (haddr : addr < 2 ^ 64) =>
    stores_of_safe addr count hwords hlow htame.vaddr_ne haddr halloc hsafe
      (fun _ _ => fillSegment_mapped)
  obtain ⟨hc₀, hregion⟩ := allocRegion64_spec hp.loading.counted hp.loading.userData
    (Elf64Phdr.round_lt hwords hlow) halloc
  have hv := hwords.vaddr
  rw [fillSegment] at hstores
  generalize readFile file h.pOffset h.pFilesz = data at hstores
  -- the bytes of the file keep to the pages, so these stores do not fault
  obtain ⟨hpages, hend⟩ := hstores h.pVaddr data.length hv
    (LoadRun.mem_bind_log (wrote_mem_writeSegment _ _ _ _ _ _) _)
  have hbyte : ∀ j < data.length, h.pVaddr + j < lowerHalf ∧
      translate s₀ root (h.pVaddr + j) ≠ none := by
    intro j hj
    have hlt : h.pVaddr + j < lowerHalf := by omega
    have hin := hpages j hj
    rw [Nat.mod_eq_of_lt (by rw [lowerHalf] at hlt; omega)] at hin
    have hpte := hregion.pte _ hlt
    rw [if_pos hin] at hpte
    obtain ⟨-, f, -, hsome⟩ := hpte
    rw [translate_ne_none hlt, hsome]
    exact ⟨hlt, Option.some_ne_none _⟩
  obtain ⟨s₁, hs₁, -⟩ := hregion.userData.dataPages.storeBytes h.pVaddr (data.getD · 0)
    (n := data.length) (by rw [lowerHalf] at hend; omega) (fun j hj => (hbyte j hj).1)
    (fun j hj => (hbyte j hj).2)
  have hresult : (writeSegment i root h.pVaddr data.length (data.getD · 0) s₀).result =
      .ok s₁ := by
    rw [writeSegment, hs₁]
  rw [LoadRun.bind_of_ok hresult] at hstores
  obtain ⟨-, hzeros⟩ := hstores _ _ (Nat.mod_lt _ (by decide))
    (List.mem_append_right _ (wrote_mem_writeSegment _ _ _ _ _ _))
  by_contra hmore
  have hfilesz := htame.filesz_le
  have hmemsz := hwords.memsz
  rw [lowerHalf] at hzeros
  omega

/-- A segment on which the loader is safe shares no page with those loaded before. -/
theorem apart_of_safe (hp : Plenty root rest held done k s) (hwords : h.Words)
    (hlow : h.InLowerHalf)
    (hsafe : SafeLoad (loadSegment root file nx i h s breakAddr)) :
    ∀ h' ∈ done, h'.Apart h := by
  obtain ⟨s₀, halloc, -⟩ := alloc_of_safe hp hwords hlow hsafe
  obtain ⟨hc₀, hregion⟩ := allocRegion64_spec hp.loading.counted hp.loading.userData
    (Elf64Phdr.round_lt hwords hlow) halloc
  rintro h' hmem p ⟨hpage', hpage⟩
  have hlt := hpage.lt hlow
  have ha : p * pageSize < lowerHalf := by
    rw [pageSize] at *
    omega
  have hdiv : p * pageSize / pageSize = p := Nat.mul_div_cancel _ (by decide)
  have hpte := hregion.pte _ ha
  rw [if_pos ((Elf64Phdr.inPages_iff hwords hlow _).mpr (hdiv.symm ▸ hpage))] at hpte
  exact (hp.loading.mapped _ ha).mpr ⟨h', hmem, hdiv.symm ▸ hpage'⟩ hpte.1

/-- What is left after a segment on which the loader is safe. -/
theorem plenty_of_safe (hp : Plenty root rest held done k s) (hwords : h.Words)
    (htame : h.Tame) (hlow : h.InLowerHalf) (hfile : h.pFilesz ≤ h.pMemsz)
    (hsafe : SafeLoad (loadSegment root file nx i h s breakAddr)) :
    ∃ s', (loadSegment root file nx i h s breakAddr).result =
        .ok (s', some (nextBreak h breakAddr)) ∧
      Plenty root rest held (h :: done)
        (k + 4 * regionRounds h.pVaddr h.pMemsz) s' := by
  obtain ⟨s₀, halloc, hroomy, husable⟩ := alloc_of_safe hp hwords hlow hsafe
  obtain ⟨s₂, hfill, ⟨m, hglobals⟩, -, hloaded⟩ := fillSegment_ok file i hwords hlow
    hfile hp.loading.counted hp.loading.userData halloc
  have hresult := (loadSegment_alloc (i := i) file breakAddr htame.vaddr_ne halloc).2
  rw [hfill] at hresult
  have hrounds := Elf64Phdr.regionRounds_eq hwords hlow
  have hin : ∀ p, h.firstPage ≤ p ∧ p < h.firstPage + regionRounds h.pVaddr h.pMemsz ↔
      h.HasPage p := by
    intro p
    rw [hrounds]
    rfl
  have hdiv : ∀ p, p * pageSize / pageSize = p :=
    fun p => Nat.mul_div_cancel _ (by decide)
  have hbelow : ∀ p, h.HasPage p → p * pageSize < lowerHalf := by
    intro p hpage
    have hlt := hpage.lt hlow
    rw [pageSize] at *
    omega
  have hcard : (unmappedPages s₂ root).card + regionRounds h.pVaddr h.pMemsz =
      (unmappedPages s root).card := by
    apply unmappedPages_card h.firstPage
    · intro p hlo hhi
      exact hbelow p ((hin p).mp ⟨hlo, hhi⟩)
    · intro p hlo hhi
      have hpage := (hin p).mp ⟨hlo, hhi⟩
      exact hloaded.fresh _ (hbelow p hpage) (by rwa [hdiv])
    · intro p hlt
      have hmapped := hloaded.mapped _ hlt
      rw [hdiv, ← hin] at hmapped
      rw [← not_iff_not, ← ne_eq, hmapped]
      tauto
  refine ⟨s₂, hresult, hp.loading.next hloaded, ?_, ?_⟩
  · rw [hglobals]
    exact ⟨hroomy.hint, hroomy.free, hroomy.low⟩
  · have husable₂ : s₂.usablePageCount = s.usablePageCount := by
      rw [hglobals]
      exact husable
    have hframes := hp.frames
    omega

end Safe

/-! ### The whole file -/

def LoadEvent.segment : LoadEvent → Nat
  | .mapped i _ _ => i
  | .wrote i _ _ => i

/-- A log of the segment `i` and of later ones is safe only if both parts are. -/
theorem SafeLog.split {log log' : List LoadEvent} {i : Nat}
    (h : SafeLog (log ++ log')) (hfirst : ∀ e ∈ log, e.segment = i)
    (hlater : ∀ e ∈ log', i < e.segment) : SafeLog log ∧ SafeLog log' := by
  constructor
  · refine ⟨fun j vaddr pages hmem => h.lower j vaddr pages
      (List.mem_append_left _ hmem), fun j addr count hmem k hk => ?_⟩
    obtain ⟨vaddr, pages, hin, hpage⟩ :=
      h.inside j addr count (List.mem_append_left _ hmem) k hk
    refine ⟨vaddr, pages, (List.mem_append.mp hin).resolve_right fun hin' => ?_, hpage⟩
    have hj : j = i := hfirst _ hmem
    have hlt : i < j := hlater _ hin'
    omega
  · refine ⟨fun j vaddr pages hmem => h.lower j vaddr pages
      (List.mem_append_right _ hmem), fun j addr count hmem k hk => ?_⟩
    obtain ⟨vaddr, pages, hin, hpage⟩ :=
      h.inside j addr count (List.mem_append_right _ hmem) k hk
    refine ⟨vaddr, pages, (List.mem_append.mp hin).resolve_left fun hin' => ?_, hpage⟩
    have hlt : i < j := hlater _ hmem
    have hj : j = i := hfirst _ hin'
    omega

/-- A safe run of the segment `i` and of later ones is made of safe runs. -/
theorem SafeLoad.split {α β : Type} {x : LoadRun α} {f : α → LoadRun β} {i : Nat}
    (h : SafeLoad (x >>= f)) (hfirst : ∀ e ∈ x.log, e.segment = i)
    (hlater : ∀ a, ∀ e ∈ (f a).log, i < e.segment) :
    SafeLoad x ∧ ∀ a, x.result = .ok a → SafeLoad (f a) := by
  cases hresult : x.result with
  | error stop =>
      rw [LoadRun.bind_of_error hresult] at h
      refine ⟨⟨h.log, fun stop' hstop => ?_⟩, nofun⟩
      cases hresult.symm.trans hstop
      exact h.stops stop rfl
  | ok a =>
      rw [LoadRun.bind_of_ok hresult] at h
      obtain ⟨hx, hf⟩ := h.log.split hfirst (hlater a)
      refine ⟨⟨hx, fun stop hstop => ?_⟩, fun a' ha' => ?_⟩
      · cases hresult.symm.trans hstop
      · cases ha'
        exact ⟨hf, h.stops⟩

theorem LoadRun.mem_bind {α β : Type} {x : LoadRun α} {f : α → LoadRun β}
    {e : LoadEvent} (h : e ∈ (x >>= f).log) :
    e ∈ x.log ∨ ∃ a, x.result = .ok a ∧ e ∈ (f a).log := by
  cases hresult : x.result with
  | error stop =>
      rw [LoadRun.bind_of_error hresult] at h
      exact Or.inl h
  | ok a =>
      rw [LoadRun.bind_of_ok hresult] at h
      exact (List.mem_append.mp h).imp_right fun h => ⟨a, rfl, h⟩

theorem loadSegment_segment {file : List Byte} {nx : Bool} {i breakAddr : Nat}
    {h : Elf64Phdr} {e : LoadEvent}
    (hmem : e ∈ (loadSegment root file nx i h s breakAddr).log) : e.segment = i := by
  rw [loadSegment] at hmem
  rcases LoadRun.mem_bind hmem with hmem | ⟨s₀, -, hmem⟩
  · cases List.mem_singleton.mp hmem
    rfl
  split at hmem
  · cases hmem
  rcases LoadRun.mem_bind hmem with hmem | ⟨s₁, -, hmem⟩
  · rw [fillSegment] at hmem
    rcases LoadRun.mem_bind hmem with hmem | ⟨s₁, -, hmem⟩
    · cases List.mem_singleton.mp hmem
      rfl
    · cases List.mem_singleton.mp hmem
      rfl
  · cases hmem

theorem loadSegments_segment (root : Nat) (file : List Byte) (nx : Bool)
    (e : LoadEvent) : ∀ (phdrs : List Elf64Phdr) (i : Nat) (s : PhysMem)
    (breakAddr : Nat), e ∈ (loadSegments root file nx i phdrs s breakAddr).log →
      i ≤ e.segment
  | [], _, _, _, hmem => by cases hmem
  | h :: phdrs, i, s, breakAddr, hmem => by
      rw [loadSegments] at hmem
      split at hmem
      · rcases LoadRun.mem_bind hmem with hmem | ⟨⟨s', loaded⟩, -, hmem⟩
        · rw [loadSegment_segment hmem]
        · cases loaded with
          | none => cases hmem
          | some breakAddr' =>
              exact Nat.le_of_succ_le
                (loadSegments_segment root file nx e phdrs (i + 1) s' breakAddr' hmem)
      · exact Nat.le_of_succ_le
          (loadSegments_segment root file nx e phdrs (i + 1) s breakAddr hmem)

/-- Loading safely after well placed headers takes well placed headers. -/
theorem wellPlaced_of_safe (root : Nat) (rest : List (Nat × Nat)) (held : Nat → Nat)
    (file : List Byte) (nx : Bool) : ∀ (phdrs : List Elf64Phdr) (i : Nat) (s : PhysMem)
    (breakAddr : Nat) (done : List Elf64Phdr) (k : Nat),
    Plenty root rest held done k s → (∀ h ∈ phdrs, h.Words) →
    (∀ h ∈ phdrs.filter (·.pType == ptLoad), h.Tame) →
    SafeLoad (loadSegments root file nx i phdrs s breakAddr) →
    WellPlaced (phdrs.filter (·.pType == ptLoad)) ∧
      ∀ h ∈ done, ∀ h' ∈ phdrs.filter (·.pType == ptLoad), h.Apart h'
  | [], _, _, _, _, _, _, _, _, _ => ⟨⟨nofun, nofun, .nil⟩, nofun⟩
  | h :: phdrs, i, s, breakAddr, done, k, hp, hwords, htame, hsafe => by
      have hwords' : ∀ h' ∈ phdrs, h'.Words :=
        fun h' hmem => hwords h' (List.mem_cons_of_mem _ hmem)
      have hw := hwords h List.mem_cons_self
      rw [loadSegments] at hsafe
      by_cases htype : h.pType = ptLoad
      · have hfilter : (h :: phdrs).filter (·.pType == ptLoad) =
            h :: phdrs.filter (·.pType == ptLoad) :=
          List.filter_cons_of_pos (by simpa using htype)
        rw [if_pos htype] at hsafe
        rw [hfilter] at htame ⊢
        have ht := htame h List.mem_cons_self
        obtain ⟨hfirst, hlater⟩ := hsafe.split (i := i)
          (fun e hmem => loadSegment_segment hmem) (by
            rintro ⟨s', loaded⟩ e hmem
            cases loaded with
            | none => cases hmem
            | some breakAddr' =>
                exact loadSegments_segment root file nx e phdrs (i + 1) s' breakAddr' hmem)
        have hlow := inLowerHalf_of_safe hp ht hfirst
        have hfile := file_le_of_safe hp hw hlow ht hfirst
        obtain ⟨s', hresult, hp'⟩ := plenty_of_safe hp hw ht hlow hfile hfirst
        obtain ⟨hplaced, hapart⟩ := wellPlaced_of_safe root rest held file nx phdrs (i + 1)
          s' (nextBreak h breakAddr) (h :: done) _ hp' hwords'
          (fun h' hmem => htame h' (List.mem_cons_of_mem _ hmem)) (hlater _ hresult)
        refine ⟨⟨?_, ?_, ?_⟩, ?_⟩
        · exact List.forall_mem_cons.mpr ⟨hlow, hplaced.lower⟩
        · exact List.forall_mem_cons.mpr ⟨fun _ => hfile, hplaced.file_le⟩
        · exact List.pairwise_cons.mpr
            ⟨hapart h List.mem_cons_self, hplaced.apart⟩
        · intro h₁ hmem₁
          exact List.forall_mem_cons.mpr ⟨apart_of_safe hp hw hlow hfirst h₁ hmem₁,
            hapart h₁ (List.mem_cons_of_mem _ hmem₁)⟩
      · rw [if_neg htype] at hsafe
        rw [List.filter_cons_of_neg (by simpa using htype)] at htame ⊢
        exact wellPlaced_of_safe root rest held file nx phdrs (i + 1) s breakAddr done k
          hp hwords' htame hsafe

theorem loadSegments_ne_none (root : Nat) (file : List Byte) (nx : Bool) :
    ∀ (phdrs : List Elf64Phdr) (i : Nat) (s : PhysMem) (breakAddr : Nat),
    (∀ h ∈ phdrs.filter (·.pType == ptLoad), h.pVaddr ≠ 0) →
    ∀ s', (loadSegments root file nx i phdrs s breakAddr).result ≠ .ok (s', none)
  | [], _, _, _, _, _ => nofun
  | h :: phdrs, i, s, breakAddr, hne, s' => by
      rw [loadSegments]
      by_cases htype : h.pType = ptLoad
      · rw [List.filter_cons_of_pos (by simpa using htype)] at hne
        rw [if_pos htype]
        have hsegment : ∀ r, (loadSegment root file nx i h s breakAddr).result ≠
            .ok (r, none) := by
          intro r hresult
          cases halloc : allocRegion64 s root h.pVaddr h.pMemsz (segmentFlags h nx) with
          | error reason =>
              rw [loadSegment, LoadRun.bind_of_error (by rw [allocSegment, halloc])]
                at hresult
              cases hresult
          | ok s₀ =>
              rw [(loadSegment_alloc file breakAddr (hne h List.mem_cons_self) halloc).2]
                at hresult
              cases hfill : (fillSegment root file i h s₀).result with
              | error stop =>
                  rw [hfill] at hresult
                  cases hresult
              | ok s₁ =>
                  rw [hfill] at hresult
                  cases hresult
        cases hresult : (loadSegment root file nx i h s breakAddr).result with
        | error stop =>
            rw [LoadRun.bind_of_error hresult]
            intro hok
            cases hok
        | ok r =>
            rw [LoadRun.bind_of_ok hresult]
            obtain ⟨s₁, loaded⟩ := r
            cases loaded with
            | none => exact absurd hresult (hsegment s₁)
            | some breakAddr' =>
                exact loadSegments_ne_none root file nx phdrs (i + 1) s₁ breakAddr'
                  (fun h' hmem => hne h' (List.mem_cons_of_mem _ hmem)) s'
      · rw [List.filter_cons_of_neg (by simpa using htype)] at hne
        rw [if_neg htype]
        exact loadSegments_ne_none root file nx phdrs (i + 1) s breakAddr hne s'

/-! ### A machine with frames for every page -/

/-- A machine with frames for the whole lower half. -/
def largeMachine : PhysMem := emptyMachine 0x10000000000 (by decide)

theorem largeMachine_plenty : Plenty 1 [] emptyHeld [] 2 largeMachine where
  loading := (emptyMachine_empty (Nat.le_refl _) (by decide)).loading
  roomy := emptyMachine_roomy (Nat.le_refl _)
  frames := by
    have hle : (unmappedPages largeMachine 1).card ≤ lowerPages :=
      (Finset.card_filter_le _ _).trans (Nat.le_of_eq (Finset.card_range _))
    have hframes : largeMachine.usablePageCount = 2 ^ 40 := rfl
    rw [hframes]
    rw [lowerPages] at hle
    omega

/-- `load_elf` returns a null pointer, or keeps to the pages of its segments and does
not panic because a page is mapped already. -/
def SafelyLoaded (run : LoadRun Loaded) : Prop := ReturnsNull run ∨ SafeLoad run

/-- What `load_elf` takes for granted of a file. -/
def Placed (file : List Byte) (stack : StackBytes) : Prop :=
  isCompatibleBinary file stack = false ∨
    HeadersFit file stack ∧ WellPlaced (uptoNull (loadHeaders file stack))

/-- A file that the loader neither rejects nor answers with a null pointer, whose
header fields do not wrap when they are added. -/
structure Plausible (file : List Byte) (stack : StackBytes) : Prop where
  entry : (readEhdr file stack.ehdr).eEntry ≠ 0
  tame : ∀ h ∈ loadHeaders file stack, h.Tame

/-- The loader is safe on a file that is not an executable for it, or whose headers fit on
the kernel stack and whose segments are well placed, and on no other plausible file. -/
theorem loadElf_safe_iff (file : List Byte) (stack : StackBytes) (nx : Bool) :
    (Placed file stack → ∀ s root rest held, EmptyLowerHalf s root rest held →
        SafelyLoaded (loadElf s root file stack nx)) ∧
    (Plausible file stack →
      ((∀ s root rest held, EmptyLowerHalf s root rest held →
          SafelyLoaded (loadElf s root file stack nx)) ↔ Placed file stack)) := by
  have hsafe : Placed file stack → ∀ s root rest held, EmptyLowerHalf s root rest held →
      SafelyLoaded (loadElf s root file stack nx) := by
    rintro (hnot | ⟨hfit, hplaced⟩) s root rest held he
    · rw [loadElf, hnot]
      exact Or.inl ⟨_, rfl, rfl⟩
    · exact Or.inr (loadElf_safe nx hfit hplaced he)
  refine ⟨hsafe, fun hmodest => ⟨fun hall => ?_, hsafe⟩⟩
  cases hcompatible : isCompatibleBinary file stack with
  | false => exact Or.inl hcompatible
  | true =>
      have hrun := hall largeMachine 1 [] emptyHeld
        (emptyMachine_empty (Nat.le_refl _) (by decide))
      rw [loadElf, hcompatible] at hrun
      simp only [Bool.not_true, Bool.false_eq_true, if_false] at hrun
      have hfit : HeadersFit file stack := by
        by_contra hlarge
        rw [if_pos hlarge] at hrun
        rcases hrun with ⟨loaded, hok, -⟩ | hrun
        · cases hok
        · obtain ⟨reason, hstop, -⟩ := hrun.stops _ rfl
          cases hstop
      rw [if_neg (not_not_intro hfit)] at hrun
      have hvaddr : ∀ h ∈ loadHeaders file stack, h.pVaddr ≠ 0 :=
        fun h hmem => (hmodest.tame h hmem).vaddr_ne
      have hnone := loadSegments_ne_none 1 file nx (programHeaders file stack) 0
        largeMachine 0 hvaddr
      rw [Placed, uptoNull_eq_self hvaddr]
      refine Or.inr ⟨hfit, (wellPlaced_of_safe 1 [] emptyHeld file nx
        (programHeaders file stack) 0 largeMachine 0 [] 2 largeMachine_plenty
        (fun h hmem => programHeaders_words hmem) hmodest.tame ?_).1⟩
      generalize loadSegments 1 file nx 0 (programHeaders file stack) largeMachine 0 =
        run at hrun hnone ⊢
      cases hresult : run.result with
      | error stop =>
          rw [LoadRun.bind_of_error hresult] at hrun
          rcases hrun with ⟨loaded, hok, -⟩ | hrun
          · cases hok
          · refine ⟨hrun.log, fun stop' hstop => ?_⟩
            cases hresult.symm.trans hstop
            exact hrun.stops stop rfl
      | ok r =>
          obtain ⟨s', loaded⟩ := r
          cases loaded with
          | none => exact absurd hresult (hnone s')
          | some breakAddr =>
              rw [LoadRun.bind_of_ok hresult] at hrun
              rcases hrun with ⟨loaded, hok, hnull⟩ | hrun
              · cases hok
                exact absurd hnull hmodest.entry
              · refine ⟨?_, fun stop hstop => ?_⟩
                · simpa [Pure.pure, LoadRun.pure] using hrun.log
                · cases hresult.symm.trans hstop

/-! ### Files -/

/-- The `width` bytes of a number. -/
def toBytes (n width : Nat) : List Byte :=
  (List.range width).map fun i => BitVec.ofNat 8 (n / 256 ^ i)

/-- An executable with entry point `entry` that is nothing but its headers. -/
def elfFile (entry : Nat) (hs : List Elf64Phdr) : List Byte :=
  [0x7f#8, 0x45#8, 0x4c#8, 0x46#8, 2#8, 1#8, 1#8] ++ toBytes 0 9 ++ toBytes 2 2 ++
    toBytes 62 2 ++ toBytes 1 4 ++ toBytes entry 8 ++ toBytes ehdrSize 8 ++
    toBytes 0 12 ++ toBytes ehdrSize 2 ++ toBytes phdrSize 2 ++ toBytes hs.length 2 ++
    toBytes 0 6 ++
    hs.flatMap fun h => toBytes h.pType 4 ++ toBytes h.pFlags 4 ++ toBytes h.pOffset 8 ++
      toBytes h.pVaddr 8 ++ toBytes 0 8 ++ toBytes h.pFilesz 8 ++ toBytes h.pMemsz 8 ++
      toBytes pageSize 8

/-- A kernel stack of zeros, of which half is left. -/
def zeroStack : StackBytes := ⟨[], [], [], [], 4096 * 16⟩

def twoSegments (second : Nat) : List Byte :=
  elfFile 0x400000 [⟨ptLoad, pfX, 0, 0x400000, 0, 16⟩, ⟨ptLoad, 0, 0, second, 0, 16⟩]

/-- Two segments on pages of their own are loaded safely in every address space. -/
theorem load_elf_safe_apart :
    isCompatibleBinary (twoSegments 0x401000) zeroStack = true ∧
      ∀ s root rest held, EmptyLowerHalf s root rest held →
        SafelyLoaded (loadElf s root (twoSegments 0x401000) zeroStack true) := by
  have hheaders : loadHeaders (twoSegments 0x401000) zeroStack =
      [⟨ptLoad, pfX, 0, 0x400000, 0, 16⟩, ⟨ptLoad, 0, 0, 0x401000, 0, 16⟩] := by
    decide
  have hmodest : Plausible (twoSegments 0x401000) zeroStack := by
    refine ⟨by decide, ?_⟩
    rw [hheaders]
    intro h hmem
    simp only [List.mem_cons, List.not_mem_nil, or_false] at hmem
    rcases hmem with rfl | rfl
    · exact ⟨by decide, by decide, by decide⟩
    · exact ⟨by decide, by decide, by decide⟩
  have hplaced : WellPlaced (uptoNull (loadHeaders (twoSegments 0x401000) zeroStack)) := by
    rw [uptoNull_eq_self fun h hmem => (hmodest.tame h hmem).vaddr_ne, hheaders]
    refine ⟨?_, ?_, List.pairwise_pair.mpr ?_⟩
    · intro h hmem
      simp only [List.mem_cons, List.not_mem_nil, or_false] at hmem
      rcases hmem with rfl | rfl
      · exact Or.inl (by decide)
      · exact Or.inl (by decide)
    · intro h hmem
      simp only [List.mem_cons, List.not_mem_nil, or_false] at hmem
      rcases hmem with rfl | rfl <;> exact fun _ => Nat.zero_le _
    · rintro p ⟨hfirst, hsecond⟩
      simp only [Elf64Phdr.HasPage, Elf64Phdr.firstPage, Elf64Phdr.endPage, pageSize]
        at hfirst hsecond
      omega
  exact ⟨by decide,
    ((loadElf_safe_iff _ _ true).2 hmodest).mpr (Or.inr ⟨by decide, hplaced⟩)⟩

/-- Two segments that share a page make `alloc_region` panic. -/
theorem load_elf_panics_shared :
    EmptyLowerHalf (emptyMachine 64 (by decide)) 1 [] emptyHeld ∧
      ¬ SafelyLoaded (loadElf (emptyMachine 64 (by decide)) 1 (twoSegments 0x400800)
        zeroStack true) := by
  have hpanic : (match (loadElf (emptyMachine 64 (by decide)) 1 (twoSegments 0x400800)
      zeroStack true).result with
    | .error (.panic .alreadyMapped) => true
    | _ => false) = true := by decide
  have hresult : (loadElf (emptyMachine 64 (by decide)) 1 (twoSegments 0x400800)
      zeroStack true).result = .error (.panic .alreadyMapped) := by
    split at hpanic
    · assumption
    · cases hpanic
  refine ⟨emptyMachine_empty _ (by decide), ?_⟩
  rintro (⟨loaded, hok, -⟩ | hsafe)
  · rw [hresult] at hok
    cases hok
  · exact hsafe.noOverlap hresult

end GlitchedOS
