/-
Copy-on-write against eager copying.  The reference gives each address space
pages of its own; a run of the paging code whose counts stay in range shows
every address space what the reference shows it.
-/
import GlitchedOS.Paging.System

namespace GlitchedOS

open Radix

/-- Physical memory, the live roots, and the frames held outside page tables. -/
structure Spaces where
  phys : PhysMem
  roots : List Nat
  held : Nat → Nat

def Spaces.trees (st : Spaces) : List (Nat × Nat) := st.roots.map fun r => (4, r)

/-! ### User stores -/

/-- The word of a page an address lies in. -/
def wordIndex (addr : Nat) : Nat := addr / 8 % 512

/-- A store through the entry `e`; a store of fewer bytes is an update of the
word they lie in. -/
def storeAt (s : PhysMem) (e : Word) (addr : Nat) (update : Word → Word) :
    PhysMem :=
  s.writeWord (frameOf e) (wordIndex addr)
    (update (s.mem (frameOf e) (wordIndex addr)))

/-- A user store: done when the PTE is writable, else handed to `cow_handler` and
retried if the fault was resolved. -/
def userStore (s : PhysMem) (root addr : Nat) (update : Word → Word) :
    Except Panic PhysMem :=
  match pte s root addr with
  | none => .ok s
  | some e =>
    if hasFlag e flagsRw then .ok (storeAt s e addr update)
    else do
      let (resolved, s) ← cowHandler s root addr
      if resolved then
        match pte s root addr with
        | none => .ok s
        | some e =>
          if hasFlag e flagsRw then .ok (storeAt s e addr update) else .ok s
      else .ok s

/-! ### Operations -/

inductive SpaceOp where
  | clonePageTables (root new : Nat)
  | allocZeroRegion (root vaddr size : Nat) (flags : Flags)
  | freePage (root page : Nat)
  | freePageTables (root : Nat)
  | store (root addr : Nat) (update : Word → Word)

/-- One operation on a live address space.  `new` names the address space
`clone_page_tables` returns. -/
inductive SpaceStep : Spaces → SpaceOp → Spaces → Prop
  | clonePageTables {st : Spaces} {root new : Nat} {s' : PhysMem}
      (hroot : root ∈ st.roots)
      (hok : GlitchedOS.clonePageTables st.phys root = .ok (new, s')) :
      SpaceStep st (.clonePageTables root new)
        { st with phys := s', roots := new :: st.roots }
  | allocZeroRegion {st : Spaces} {root vaddr size : Nat} {flags : Flags}
      {s' : PhysMem} (hroot : root ∈ st.roots)
      (hfit : vaddr + size ≤ lowerHalf)
      (hok : GlitchedOS.allocZeroRegion st.phys root vaddr size flags =
        .ok s') :
      SpaceStep st (.allocZeroRegion root vaddr size flags)
        { st with phys := s' }
  | freePage {st : Spaces} {root page : Nat} (hroot : root ∈ st.roots)
      (hfit : page < lowerHalf) :
      SpaceStep st (.freePage root page)
        { st with phys := (GlitchedOS.freePage st.phys root page).2 }
  | freePageTables {st : Spaces} {root : Nat} (hroot : root ∈ st.roots) :
      SpaceStep st (.freePageTables root)
        { st with phys := GlitchedOS.freePageTables st.phys root
                  roots := st.roots.erase root }
  | store {st : Spaces} {root addr : Nat} {update : Word → Word}
      {s' : PhysMem} (hroot : root ∈ st.roots) (hfit : addr < lowerHalf)
      (hmapped : (pte st.phys root addr).isSome)
      (hok : userStore st.phys root addr update = .ok s') :
      SpaceStep st (.store root addr update) { st with phys := s' }

/-- The step takes no count past the largest `uint32_t`. -/
def SpaceFits (st : Spaces) : SpaceOp → Prop
  | .clonePageTables root _ => Room st.phys 4 root
  | .allocZeroRegion _ vaddr size _ =>
      st.phys.memoryBitmap st.phys.zeroPage +
        pageRounds vaddr (pageAlign (vaddr + size)) < 2 ^ 32
  | _ => True

/-! ### The reference -/

/-- A page of the reference, owned by one address space. -/
structure RefPage where
  data : Nat → Word
  writable : Bool

def RefPage.store (addr : Nat) (update : Word → Word) (page : RefPage) :
    RefPage :=
  if page.writable then
    ⟨Function.update page.data (wordIndex addr)
      (update (page.data (wordIndex addr))), true⟩
  else page

/-- What each address space maps, by page number. -/
abbrev Reference := Nat → Nat → Option RefPage

/-- Eager copying: a clone gets pages of its own, and `alloc_zero_region` maps
private pages of zeros. -/
def Reference.step (ref : Reference) : SpaceOp → Reference
  | .clonePageTables root new => Function.update ref new (ref root)
  | .allocZeroRegion root vaddr size flags =>
      Function.update ref root fun page =>
        if InPages vaddr (pageRounds vaddr (pageAlign (vaddr + size)))
          (page * pageSize) then
          some ⟨fun _ => 0#64, hasFlag flags.1 flagsRw || hasFlag flags.1 flagsCow⟩
        else ref root page
  | .freePage root page =>
      if page = 0 then ref
      else Function.update ref root
        (Function.update (ref root) (page / pageSize) none)
  | .freePageTables root => Function.update ref root fun _ => none
  | .store root addr update =>
      Function.update ref root
        (Function.update (ref root) (addr / pageSize)
          ((ref root (addr / pageSize)).map (RefPage.store addr update)))

/-- What an address space reads and may write at the page of `addr`. -/
def view (s : PhysMem) (root addr : Nat) : Option RefPage :=
  (pte s root addr).map fun e =>
    ⟨s.mem (frameOf e), hasFlag e flagsRw || hasFlag e flagsCow⟩

/-- The counts are consistent: they are exact, a writable page is mapped nowhere
else, no page table is mapped, and the zero page is held and all zero. -/
structure Spaces.Consistent (st : Spaces) : Prop where
  counted : Counted st.phys st.held st.trees
  alone : ∀ root ∈ st.roots, ∀ a < lowerHalf, ∀ e, pte st.phys root a = some e →
    hasFlag e flagsRw = true → st.phys.memoryBitmap (frameOf e) = 1
  notTable : ∀ root ∈ st.roots, ∀ a < lowerHalf, ∀ e,
    pte st.phys root a = some e →
      forestTables pageFormat st.phys.mem st.trees (frameOf e) = 0
  zeroHeld : st.held st.phys.zeroPage = 1
  zeroed : st.phys.mem st.phys.zeroPage = fun _ => 0#64

/-- Every live address space reads what it reads in the reference. -/
def Spaces.Agrees (st : Spaces) (ref : Reference) : Prop :=
  ∀ root ∈ st.roots, ∀ a < lowerHalf,
    ref root (a / pageSize) = view st.phys root a

variable {st : Spaces} {s' : PhysMem} {ref : Reference}
variable {root addr a : Nat} {e : Word}

namespace Spaces

theorem mem_trees (hroot : root ∈ st.roots) :
    (4, root) ∈ st.trees :=
  List.mem_map.mpr ⟨root, hroot, rfl⟩

theorem trees_perm (hroot : root ∈ st.roots) :
    st.trees.Perm ((4, root) :: st.trees.erase (4, root)) :=
  List.perm_cons_erase (mem_trees hroot)

theorem mem_erase {root' : Nat} (hroot' : root' ∈ st.roots)
    (hne : root' ≠ root) : (4, root') ∈ st.trees.erase (4, root) := by
  rw [List.mem_erase_of_ne]
  · exact mem_trees hroot'
  · intro h
    exact hne (Prod.mk.inj h).2

/-- Tables counted with the tree of `root` brought to the front. -/
theorem forestTables_front (hroot : root ∈ st.roots) (m : Nat → Nat → Word) (f : Nat) :
    forestTables pageFormat m ((4, root) :: st.trees.erase (4, root)) f =
      forestTables pageFormat m st.trees f :=
  (forestWeight_perm pageFormat m _ _ (trees_perm hroot)).symm

namespace Consistent

theorem front (h : st.Consistent) (hroot : root ∈ st.roots) :
    Counted st.phys st.held ((4, root) :: st.trees.erase (4, root)) :=
  h.counted.perm (trees_perm hroot)

theorem mapped (h : st.Consistent) (hroot : root ∈ st.roots) (ha : a < lowerHalf)
    (hpte : pte st.phys root a = some e) :
    frameOf e < st.phys.usablePageCount ∧
      st.phys.memoryBitmap (frameOf e) ≠ 0 ∧
      forestTables pageFormat st.phys.mem st.trees (frameOf e) = 0 := by
  obtain ⟨hlt, hused, -⟩ := h.counted.mapped (mem_trees hroot) ha hpte
  exact ⟨hlt, hused, h.notTable root hroot a ha e hpte⟩

theorem zero_inUse (h : st.Consistent) :
    st.phys.zeroPage < st.phys.usablePageCount ∧
      st.phys.memoryBitmap st.phys.zeroPage ≠ 0 ∧
      forestTables pageFormat st.phys.mem st.trees st.phys.zeroPage = 0 := by
  have hzero := h.zeroHeld
  have hlt := h.counted.held_lt st.phys.zeroPage (by omega)
  have honce := h.counted.once st.phys.zeroPage
  refine ⟨hlt, ?_, by omega⟩
  rw [h.counted.exact _ hlt]
  omega

/-- A frame of count `1` is mapped by one page only: taking that page away would
leave no reference for another. -/
theorem unique (h : st.Consistent) {root' a' : Nat} {e' : Word}
    (hroot : root ∈ st.roots) (ha : a < lowerHalf)
    (hpte : pte st.phys root a = some e)
    (hone : st.phys.memoryBitmap (frameOf e) = 1)
    (hroot' : root' ∈ st.roots) (ha' : a' < lowerHalf)
    (hpte' : pte st.phys root' a' = some e') (hframe : frameOf e' = frameOf e) :
    root' = root ∧ a' / pageSize = a / pageSize := by
  by_contra hdiff
  -- an address of the same page that `free_page` does not refuse
  set b := a / pageSize * pageSize + 1 with hb
  have hpage : b / pageSize = a / pageSize := by
    simp only [hb, pageSize]
    omega
  have hblt : b < lowerHalf := by
    simp only [hb, pageSize, lowerHalf] at ha ⊢
    omega
  have hpteb : pte st.phys root b = some e := by
    rw [← hpte]
    apply leafWord_path_congr
    intro j hlo hhi
    exact (vpath_samePage ha hblt).mpr hpage j hlo hhi
  obtain ⟨hc', hun⟩ := freePage_spec (h.front hroot) (by omega) hblt hpteb
  have hkeep : pte (freePage st.phys root b).2 root' a' = some e' := by
    rw [← hpte']
    by_cases hsame : root' = root
    · rw [hsame, hun.pte a' ha', if_neg]
      rw [hpage]
      exact fun hpages => hdiff ⟨hsame, hpages⟩
    · exact hun.elsewhere (4, root') (mem_erase hroot' hsame) _
        (vpath_inRange ha')
  obtain ⟨-, hused, -⟩ := hc'.mapped
    ((trees_perm hroot).mem_iff.mp (mem_trees hroot')) ha' hkeep
  have hgone := hun.bitmap (frameOf e) (by
    rw [forestTables_front hroot]
    exact h.notTable root hroot a ha e hpte)
  rw [if_pos rfl, hone] at hgone
  rw [hframe] at hused
  exact hused hgone

end Consistent

end Spaces

theorem pte_entries (s : PhysMem) (root a : Nat) :
    pte s root a = (entries s root a).bind List.getLast? := rfl

/-- A page whose entry and frame do not change looks the same. -/
theorem view_congr {s s' : PhysMem} (hpte : pte s' root a = pte s root a)
    (hdata : ∀ e, pte s root a = some e →
      s'.mem (frameOf e) = s.mem (frameOf e)) :
    view s' root a = view s root a := by
  rw [view, view, hpte]
  cases h : pte s root a with
  | none => rfl
  | some e => rw [Option.map_some, Option.map_some, hdata e h]

theorem Spaces.Agrees.update {roots : List Nat}
    {pages : Nat → Option RefPage} (hagree : st.Agrees ref)
    (hsub : ∀ r ∈ roots, r ≠ root → r ∈ st.roots)
    (hself : root ∈ roots → ∀ a < lowerHalf,
      pages (a / pageSize) = view s' root a)
    (hother : ∀ r ∈ roots, r ≠ root → ∀ a < lowerHalf,
      view s' r a = view st.phys r a) :
    Spaces.Agrees ⟨s', roots, st.held⟩ (Function.update ref root pages) := by
  intro r hr a ha
  by_cases hrr : r = root
  · subst hrr
    rw [Function.update_self]
    exact hself hr a ha
  · rw [Function.update_of_ne hrr, hagree r (hsub r hr hrr) a ha]
    exact (hother r hr hrr a ha).symm

theorem view_share {s s' : PhysMem} {root' : Nat}
    (hpte : pte s' root' a = (pte s root a).map shareWord)
    (hdata : ∀ e, pte s root a = some e →
      s'.mem (frameOf e) = s.mem (frameOf e)) :
    view s' root' a = view s root a := by
  rw [view, view, hpte]
  cases h : pte s root a with
  | none => rfl
  | some e =>
      simp only [Option.map_some, frameOf_shareWord, shareWord_rw,
        shareWord_cow, hdata e h, Bool.false_or]

namespace Spaces

/-! ### One lemma for each operation -/

/-- `clone_page_tables` is a copy of every page. -/
theorem clone_step (h : st.Consistent) (hagree : st.Agrees ref) {new : Nat}
    (hroot : root ∈ st.roots) (hroom : Room st.phys 4 root)
    (hok : clonePageTables st.phys root = .ok (new, s')) :
    Consistent ⟨s', new :: st.roots, st.held⟩ ∧
      Agrees ⟨s', new :: st.roots, st.held⟩
        (ref.step (.clonePageTables root new)) := by
  have hcl := clonePageTables_spec (h.front hroot) hroom hok
  have hdata : ∀ r ∈ st.roots, ∀ a < lowerHalf, ∀ e,
      pte st.phys r a = some e →
        s'.mem (frameOf e) = st.phys.mem (frameOf e) := by
    intro r hr a ha e hpte
    obtain ⟨-, hused, htab⟩ := h.mapped hr ha hpte
    refine hcl.data _ (fun _ => hused) ?_
    rw [forestTables_front hroot]
    exact htab
  have hnew : new ∉ st.roots := by
    intro hmem
    have hpos : 0 < forestTables pageFormat st.phys.mem st.trees new :=
      Nat.lt_of_lt_of_le (tableCount_self_pos pageFormat st.phys.mem 3 new)
        (tableCount_le_forestTables pageFormat st.phys.mem
          (x := (4, new)) (mem_trees hmem) new)
    exact h.counted.table_inUse hpos hcl.fresh.1 hcl.fresh.2
  have helse : ∀ r ∈ st.roots, r ≠ root → ∀ a < lowerHalf,
      pte s' r a = pte st.phys r a := fun r hr hne a ha =>
    hcl.elsewhere (4, r) (mem_erase hr hne) _ (vpath_inRange ha)
  have hperm : ((4, new) :: (4, root) :: st.trees.erase (4, root)).Perm
      ((4, new) :: st.trees) := (trees_perm hroot).symm.cons _
  -- every entry of the new state comes from an entry of the old one
  have hsource : ∀ r ∈ new :: st.roots, ∀ a < lowerHalf, ∀ e,
      pte s' r a = some e → ∃ r₀ ∈ st.roots, ∃ e₀,
        pte st.phys r₀ a = some e₀ ∧ frameOf e = frameOf e₀ ∧
        (hasFlag e flagsRw = true → e = e₀ ∧ r₀ ≠ root) := by
    intro r hr a ha e hpte
    have hshare : pte s' r a = (pte st.phys root a).map shareWord →
        ∃ r₀ ∈ st.roots, ∃ e₀, pte st.phys r₀ a = some e₀ ∧
          frameOf e = frameOf e₀ ∧
          (hasFlag e flagsRw = true → e = e₀ ∧ r₀ ≠ root) := by
      intro hmap
      rw [hmap, Option.map_eq_some_iff] at hpte
      obtain ⟨e₀, he₀, rfl⟩ := hpte
      refine ⟨root, hroot, e₀, he₀, frameOf_shareWord e₀, ?_⟩
      rw [shareWord_rw]
      intro hfalse
      cases hfalse
    by_cases hrr : r = root
    · exact hshare (hrr ▸ hcl.shared a ha)
    · rcases List.mem_cons.mp hr with rfl | hr
      · exact hshare (hcl.copied a ha)
      · rw [helse r hr hrr a ha] at hpte
        exact ⟨r, hr, e, hpte, rfl, fun _ => ⟨rfl, hrr⟩⟩
  refine ⟨⟨hcl.counted.perm hperm, ?_, ?_, ?_, ?_⟩, ?_⟩
  · intro r hr a ha e hpte hrw
    obtain ⟨r₀, hr₀, e₀, hpte₀, hframe, halone⟩ := hsource r hr a ha e hpte
    obtain ⟨rfl, hne⟩ := halone hrw
    have hone := h.alone r₀ hr₀ a ha e hpte₀ hrw
    obtain ⟨hlt, hused, -⟩ := h.mapped hr₀ ha hpte₀
    change s'.memoryBitmap (frameOf e) = 1
    rw [hcl.bitmap _ hused, hone]
    -- the cloned address space does not map the frame
    have hexact := (h.front hroot).exact _ hlt
    have hpos : 0 < leafCount pageFormat st.phys.mem 4 r₀ (frameOf e) :=
      leafCount_pos_of_leafWord pageFormat (vpath_inRange ha) hpte₀
    have hle := leafCount_le_forestLeaves pageFormat st.phys.mem
      (mem_erase hr₀ hne) (frameOf e)
    rw [forestLeaves_cons] at hexact
    change leafCount pageFormat st.phys.mem 4 r₀ (frameOf e) ≤ _ at hle
    omega
  · intro r hr a ha e hpte
    obtain ⟨r₀, hr₀, e₀, hpte₀, hframe, -⟩ := hsource r hr a ha e hpte
    obtain ⟨-, hused, htab⟩ := h.mapped hr₀ ha hpte₀
    rw [hframe]
    refine (forestWeight_perm pageFormat _ _ _ hperm).symm.trans ?_
    refine (hcl.tables _ fun _ => hused).trans ?_
    rw [forestTables_front hroot]
    exact htab
  · change st.held s'.zeroPage = 1
    rw [hcl.zero]
    exact h.zeroHeld
  · change s'.mem s'.zeroPage = _
    obtain ⟨-, hused, htab⟩ := h.zero_inUse
    rw [hcl.zero, hcl.data _ (fun _ => hused), h.zeroed]
    rw [forestTables_front hroot]
    exact htab
  · refine Agrees.update hagree ?_ ?_ ?_
    · intro r hr hne
      exact (List.mem_cons.mp hr).resolve_left hne
    · intro _ a ha
      rw [hagree root hroot a ha]
      exact (view_share (hcl.copied a ha) (hdata root hroot a ha)).symm
    · intro r hr hne a ha
      have hr := (List.mem_cons.mp hr).resolve_left hne
      by_cases hrr : r = root
      · subst hrr
        exact view_share (hcl.shared a ha) (hdata r hr a ha)
      · exact view_congr (helse r hr hrr a ha) (hdata r hr a ha)

/-- `alloc_zero_region` maps pages of zeros. -/
theorem allocZero_step (h : st.Consistent) (hagree : st.Agrees ref)
    {vaddr size : Nat} {flags : Flags} (hroot : root ∈ st.roots)
    (hfit : vaddr + size ≤ lowerHalf)
    (hroom : st.phys.memoryBitmap st.phys.zeroPage +
      pageRounds vaddr (pageAlign (vaddr + size)) < 2 ^ 32)
    (hok : allocZeroRegion st.phys root vaddr size flags = .ok s') :
    Consistent ⟨s', st.roots, st.held⟩ ∧
      Agrees ⟨s', st.roots, st.held⟩
        (ref.step (.allocZeroRegion root vaddr size flags)) := by
  obtain ⟨hc', hz⟩ := allocZeroRegion_spec (h.front hroot) h.zeroHeld hfit hroom
    hok
  obtain ⟨hzlt, hzused, hztab⟩ := h.zero_inUse
  obtain ⟨hwpres, hwframe, hwrw, hwcow⟩ := zeroWord_spec
    (Nat.lt_of_lt_of_le hzlt st.phys.usable_le) flags
  have hdata : ∀ f < st.phys.usablePageCount, st.phys.memoryBitmap f ≠ 0 →
      forestTables pageFormat st.phys.mem st.trees f = 0 →
        s'.mem f = st.phys.mem f := by
    intro f hlt hused htab
    refine hz.data f hlt hused ?_
    rw [forestTables_front hroot]
    exact htab
  have hmapped : ∀ r ∈ st.roots, ∀ a < lowerHalf, ∀ e,
      pte st.phys r a = some e →
        s'.mem (frameOf e) = st.phys.mem (frameOf e) := by
    intro r hr a ha e hpte
    obtain ⟨hlt, hused, htab⟩ := h.mapped hr ha hpte
    exact hdata _ hlt hused htab
  have helse : ∀ r ∈ st.roots, r ≠ root → ∀ a < lowerHalf,
      pte s' r a = pte st.phys r a := fun r hr hne a ha =>
    hz.elsewhere (4, r) (mem_erase hr hne) _ (vpath_inRange ha)
  -- an entry of the new state is an old one or maps the zero page
  have hsource : ∀ r ∈ st.roots, ∀ a < lowerHalf, ∀ e, pte s' r a = some e →
      pte st.phys r a = some e ∨ e = zeroWord st.phys.zeroPage flags := by
    intro r hr a ha e hpte
    by_cases hrr : r = root
    · subst hrr
      rw [hz.pte a ha] at hpte
      split at hpte
      · exact Or.inr (Option.some.inj hpte).symm
      · exact Or.inl hpte
    · rw [helse r hr hrr a ha] at hpte
      exact Or.inl hpte
  refine ⟨⟨hc'.perm (trees_perm hroot).symm, ?_, ?_, ?_, ?_⟩, ?_⟩
  · intro r hr a ha e hpte hrw
    rcases hsource r hr a ha e hpte with hold | rfl
    · have hone := h.alone r hr a ha e hold hrw
      obtain ⟨hlt, hused, hpos⟩ := h.counted.mapped (mem_trees hr) ha hold
      change s'.memoryBitmap (frameOf e) = 1
      rw [hz.bitmap _ hused, hone, if_neg]
      intro hzero
      have hexact := h.counted.exact _ hlt
      have hheld := h.zeroHeld
      rw [hzero] at hheld
      omega
    · rw [hwrw] at hrw
      cases hrw
  · intro r hr a ha e hpte
    have htables : ∀ f < st.phys.usablePageCount,
        st.phys.memoryBitmap f ≠ 0 →
        forestTables pageFormat s'.mem st.trees f =
          forestTables pageFormat st.phys.mem st.trees f := by
      intro f hlt hused
      rw [← forestTables_front hroot, ← forestTables_front hroot]
      exact hz.tables f hlt hused
    rcases hsource r hr a ha e hpte with hold | rfl
    · obtain ⟨hlt, hused, htab⟩ := h.mapped hr ha hold
      exact (htables _ hlt hused).trans htab
    · rw [hwframe]
      exact (htables _ hzlt hzused).trans hztab
  · change st.held s'.zeroPage = 1
    rw [hz.zero]
    exact h.zeroHeld
  · change s'.mem s'.zeroPage = _
    rw [hz.zero, hdata _ hzlt hzused hztab, h.zeroed]
  · refine hagree.update (fun r hr _ => hr) ?_ ?_
    · intro _ a ha
      have hiff : InPages vaddr (pageRounds vaddr (pageAlign (vaddr + size)))
            (a / pageSize * pageSize) ↔
          InPages vaddr (pageRounds vaddr (pageAlign (vaddr + size))) a := by
        simp only [InPages, pageSize]
        omega
      simp only [hiff]
      split
      · rename_i hin
        rw [view, hz.pte a ha, if_pos hin, Option.map_some, hwframe, hwrw,
          hwcow, hdata _ hzlt hzused hztab, h.zeroed, Bool.false_or]
      · rename_i hout
        rw [hagree root hroot a ha]
        refine (view_congr ?_ (hmapped root hroot a ha)).symm
        rw [hz.pte a ha, if_neg hout]
    · intro r hr hne a ha
      exact view_congr (helse r hr hne a ha) (hmapped r hr a ha)

/-- A frame of count `1` that is still mapped after a release still has count
`1`. -/
theorem alone_of_le {trees : List (Nat × Nat)}
    (hc : Counted s' st.held trees) (hroot : (4, root) ∈ trees)
    (ha : a < lowerHalf) (hpte : pte s' root a = some e)
    (hle : s'.memoryBitmap (frameOf e) ≤ st.phys.memoryBitmap (frameOf e))
    (hone : st.phys.memoryBitmap (frameOf e) = 1) :
    s'.memoryBitmap (frameOf e) = 1 := by
  obtain ⟨-, hused, -⟩ := hc.mapped hroot ha hpte
  omega

/-- `free_page` unmaps one page. -/
theorem freePage_step (h : st.Consistent) (hagree : st.Agrees ref)
    {page : Nat} (hroot : root ∈ st.roots) (hfit : page < lowerHalf) :
    Consistent ⟨(freePage st.phys root page).2, st.roots, st.held⟩ ∧
      Agrees ⟨(freePage st.phys root page).2, st.roots, st.held⟩
        (ref.step (.freePage root page)) := by
  by_cases hpage : page = 0
  · rw [freePage, if_pos hpage, Reference.step, if_pos hpage]
    exact ⟨h, hagree⟩
  rw [Reference.step, if_neg hpage]
  cases hmap : pte st.phys root page with
  | none =>
      rw [freePage_unmapped hmap]
      refine ⟨h, hagree.update (fun r hr _ => hr) ?_ fun _ _ _ _ _ => rfl⟩
      intro _ a ha
      rw [← hagree root hroot a ha]
      by_cases hsame : a / pageSize = page / pageSize
      · rw [hsame, Function.update_self, hagree root hroot page hfit, view,
          hmap, Option.map_none]
      · rw [Function.update_of_ne hsame]
  | some e₀ =>
      obtain ⟨hc', hun⟩ := freePage_spec (h.front hroot) hpage hfit hmap
      generalize (freePage st.phys root page).2 = s' at hc' hun
      have hdata : ∀ f, forestTables pageFormat st.phys.mem st.trees f = 0 →
          s'.mem f = st.phys.mem f := by
        intro f hf
        refine hun.data f ?_
        rw [forestTables_front hroot]
        exact hf
      have helse : ∀ r ∈ st.roots, r ≠ root → ∀ a < lowerHalf,
          pte s' r a = pte st.phys r a := fun r hr hne a ha =>
        hun.elsewhere (4, r) (mem_erase hr hne) _ (vpath_inRange ha)
      have hsource : ∀ r ∈ st.roots, ∀ a < lowerHalf, ∀ e,
          pte s' r a = some e → pte st.phys r a = some e := by
        intro r hr a ha e hpte
        by_cases hrr : r = root
        · subst hrr
          rw [hun.pte a ha] at hpte
          split at hpte
          · cases hpte
          · exact hpte
        · rw [helse r hr hrr a ha] at hpte
          exact hpte
      have hcount := hc'.perm (trees_perm hroot).symm
      refine ⟨⟨hcount, ?_, ?_, ?_, ?_⟩, ?_⟩
      · intro r hr a ha e hpte hrw
        have hold := hsource r hr a ha e hpte
        refine alone_of_le hcount (mem_trees hr) ha hpte ?_
          (h.alone r hr a ha e hold hrw)
        rw [hun.bitmap _ (by
          rw [forestTables_front hroot]
          exact h.notTable r hr a ha e hold)]
        exact Nat.sub_le _ _
      · intro r hr a ha e hpte
        have htab := h.notTable r hr a ha e (hsource r hr a ha e hpte)
        have hle := hun.tables (frameOf e)
        rw [forestTables_front hroot, forestTables_front hroot, htab] at hle
        exact Nat.le_zero.mp hle
      · change st.held s'.zeroPage = 1
        rw [hun.zero]
        exact h.zeroHeld
      · change s'.mem s'.zeroPage = _
        rw [hun.zero, hdata _ h.zero_inUse.2.2, h.zeroed]
      · refine hagree.update (fun r hr _ => hr) ?_ ?_
        · intro _ a ha
          by_cases hsame : a / pageSize = page / pageSize
          · rw [hsame, Function.update_self, view, hun.pte a ha, if_pos hsame,
              Option.map_none]
          · rw [Function.update_of_ne hsame, hagree root hroot a ha]
            refine (view_congr ?_ fun e hpte =>
              hdata _ (h.notTable root hroot a ha e hpte)).symm
            rw [hun.pte a ha, if_neg hsame]
        · intro r hr hne a ha
          exact view_congr (helse r hr hne a ha) fun e hpte =>
            hdata _ (h.notTable r hr a ha e hpte)

theorem Consistent.nodup (h : st.Consistent) : st.roots.Nodup := by
  by_contra hdup
  obtain ⟨root, hcount⟩ : ∃ root, 1 < st.roots.count root := by
    by_contra hall
    refine hdup (List.nodup_iff_count_le_one.mpr fun root => ?_)
    exact Nat.le_of_not_lt fun hlt => hall ⟨root, hlt⟩
  have hroot : root ∈ st.roots := List.count_pos_iff.mp (by omega)
  have hagain : (4, root) ∈ st.trees.erase (4, root) := by
    rw [← List.count_pos_iff, List.count_erase_self]
    have hmap : st.trees.count (4, root) = st.roots.count root :=
      List.count_map_of_injective _ _ (fun _ _ h => (Prod.mk.inj h).2) _
    omega
  have hle := tableCount_le_forestTables pageFormat st.phys.mem hagain root
  have hself : 0 < tableCount pageFormat st.phys.mem 4 root root :=
    tableCount_self_pos pageFormat st.phys.mem 3 root
  have honce := (h.front hroot).once root
  rw [forestTables_cons] at honce
  change tableCount pageFormat st.phys.mem 4 root root ≤ _ at hle
  omega

/-- `free_page_tables` takes an address space away and touches no memory. -/
theorem freeTables_step (h : st.Consistent) (hagree : st.Agrees ref) (hroot : root ∈ st.roots) :
    Consistent ⟨freePageTables st.phys root, st.roots.erase root, st.held⟩ ∧
      Agrees ⟨freePageTables st.phys root, st.roots.erase root, st.held⟩
        (ref.step (.freePageTables root)) := by
  obtain ⟨hc', hsame, hbitmap⟩ := freePageTables_spec (h.front hroot)
  generalize freePageTables st.phys root = s' at hc' hsame hbitmap
  have htrees : trees ⟨s', st.roots.erase root, st.held⟩ =
      st.trees.erase (4, root) :=
    List.map_erase (fun _ _ h => (Prod.mk.inj h).2) _
  have hpteEq : ∀ r a, pte s' r a = pte st.phys r a := by
    intro r a
    rw [pte, hsame.mem, pte]
  have hlive : ∀ r ∈ st.roots.erase root, r ∈ st.roots := fun r hr =>
    List.mem_of_mem_erase hr
  rw [← htrees] at hc'
  refine ⟨⟨hc', ?_, ?_, ?_, ?_⟩, ?_⟩
  · intro r hr a ha e hpte hrw
    have hold := (hpteEq r a).symm.trans hpte
    refine alone_of_le hc' (mem_trees hr) ha hpte ?_
      (h.alone r (hlive r hr) a ha e hold hrw)
    rw [hbitmap]
    exact Nat.sub_le _ _
  · intro r hr a ha e hpte
    have hold := (hpteEq r a).symm.trans hpte
    have htab := h.notTable r (hlive r hr) a ha e hold
    rw [← forestTables_front hroot, forestTables_cons] at htab
    change forestTables pageFormat s'.mem _ (frameOf e) = 0
    rw [htrees, hsame.mem]
    omega
  · change st.held s'.zeroPage = 1
    rw [hsame.zero]
    exact h.zeroHeld
  · change s'.mem s'.zeroPage = _
    rw [hsame.zero, hsame.mem, h.zeroed]
  · refine hagree.update (fun r hr _ => hlive r hr) ?_ ?_
    · intro hmem
      exact absurd hmem (h.nodup.not_mem_erase)
    · intro r _ _ a _
      rw [view, view, hpteEq, hsame.mem]

/-- `cow_handler` changes what no address space reads. -/
theorem cow_step (h : st.Consistent) (hagree : st.Agrees ref) {b : Bool}
    (hroot : root ∈ st.roots) (hfit : addr < lowerHalf)
    (hmap : pte st.phys root addr = some e) (hcow : hasFlag e flagsCow = true)
    (hok : cowHandler st.phys root addr = .ok (b, s')) :
    b = true ∧ Consistent ⟨s', st.roots, st.held⟩ ∧
      Agrees ⟨s', st.roots, st.held⟩ ref ∧
      ∃ e', pte s' root addr = some e' ∧ hasFlag e' flagsRw = true := by
  obtain ⟨hb, hc', e', hres⟩ := cowHandler_spec (h.front hroot) hfit hmap hcow
    hok
  obtain ⟨-, hused, htab⟩ := h.mapped hroot hfit hmap
  have hself : ∀ a < lowerHalf, a / pageSize = addr / pageSize →
      pte st.phys root a = some e ∧ pte s' root a = some e' := by
    obtain ⟨links, hlinks⟩ := hres.self
    intro a ha hpage
    obtain ⟨hold, hnew⟩ := hlinks a ha hpage
    constructor
    · rw [pte_entries, hold, Option.bind_some, List.getLast?_concat]
    · rw [pte_entries, hnew, Option.bind_some, List.getLast?_concat]
  have hother : ∀ r ∈ st.roots, ∀ a < lowerHalf,
      ¬(r = root ∧ a / pageSize = addr / pageSize) →
        pte s' r a = pte st.phys r a := by
    intro r hr a ha hdiff
    by_cases hrr : r = root
    · subst hrr
      rw [pte_entries, hres.other a ha fun hpage => hdiff ⟨rfl, hpage⟩,
        pte_entries]
    · exact hres.elsewhere (4, r) (mem_erase hr hrr) _ (vpath_inRange ha)
  have htables : ∀ f, forestTables pageFormat s'.mem st.trees f =
      forestTables pageFormat st.phys.mem st.trees f := by
    intro f
    rw [← forestTables_front hroot, ← forestTables_front hroot]
    exact hres.tables f
  have hdata : ∀ f < st.phys.usablePageCount, st.phys.memoryBitmap f ≠ 0 →
      forestTables pageFormat st.phys.mem st.trees f = 0 →
        s'.mem f = st.phys.mem f := by
    intro f hlt hf hnot
    refine hres.data f hlt hf ?_
    rw [forestTables_front hroot]
    exact hnot
  have hnew := (hself addr hfit rfl).2
  refine ⟨hb, ⟨hc'.perm (trees_perm hroot).symm, ?_, ?_, ?_, ?_⟩, ?_, e', hnew,
    hres.rw⟩
  · intro r hr a ha d hpte hrw
    by_cases hsame : r = root ∧ a / pageSize = addr / pageSize
    · obtain ⟨rfl, hpage⟩ := hsame
      rw [(hself a ha hpage).2] at hpte
      obtain rfl := Option.some.inj hpte
      exact hres.alone
    · rw [hother r hr a ha hsame] at hpte
      have hone := h.alone r hr a ha d hpte hrw
      obtain ⟨-, hd, -⟩ := h.mapped hr ha hpte
      change s'.memoryBitmap (frameOf d) = 1
      rw [hres.bitmap _ hd, hone]
      -- otherwise the page of `addr` would map the frame of a writable page
      intro hframe
      obtain ⟨rfl, hpage⟩ := h.unique hr ha hpte hone hroot hfit hmap
        hframe.symm
      exact hsame ⟨rfl, hpage.symm⟩
  · intro r hr a ha d hpte
    change forestTables pageFormat s'.mem st.trees (frameOf d) = 0
    rw [htables]
    by_cases hsame : r = root ∧ a / pageSize = addr / pageSize
    · obtain ⟨rfl, hpage⟩ := hsame
      rw [(hself a ha hpage).2] at hpte
      obtain rfl := Option.some.inj hpte
      rcases hres.fresh with hframe | hfree
      · rw [hframe]
        exact htab
      · obtain ⟨hlt, -, -⟩ := hc'.mapped (List.mem_cons_self ..) hfit hnew
        exact (h.counted.fresh (hres.usable ▸ hlt) hfree).2.1
    · rw [hother r hr a ha hsame] at hpte
      exact h.notTable r hr a ha d hpte
  · change st.held s'.zeroPage = 1
    rw [hres.zero]
    exact h.zeroHeld
  · change s'.mem s'.zeroPage = _
    obtain ⟨hzlt, hzused, hztab⟩ := h.zero_inUse
    rw [hres.zero, hdata _ hzlt hzused hztab, h.zeroed]
  · intro r hr a ha
    rw [hagree r hr a ha]
    change view st.phys r a = view s' r a
    by_cases hsame : r = root ∧ a / pageSize = addr / pageSize
    · obtain ⟨rfl, hpage⟩ := hsame
      obtain ⟨hold, hnew⟩ := hself a ha hpage
      rw [view, view, hold, hnew, Option.map_some, Option.map_some,
        hres.copied, hres.rw, hcow, Bool.or_true, Bool.true_or]
    · refine (view_congr (hother r hr a ha hsame) fun d hpte => ?_).symm
      obtain ⟨hlt, hd, hnot⟩ := h.mapped hr ha hpte
      exact hdata _ hlt hd hnot

/-- A store through a writable entry changes one page of one address space. -/
theorem write_step (h : st.Consistent) (hagree : st.Agrees ref) (update : Word → Word)
    (hroot : root ∈ st.roots) (hfit : addr < lowerHalf)
    (hmap : pte st.phys root addr = some e) (hrw : hasFlag e flagsRw = true) :
    Consistent ⟨storeAt st.phys e addr update, st.roots, st.held⟩ ∧
      Agrees ⟨storeAt st.phys e addr update, st.roots, st.held⟩
        (ref.step (.store root addr update)) := by
  have hone := h.alone root hroot addr hfit e hmap hrw
  obtain ⟨hlt, -, htab⟩ := h.mapped hroot hfit hmap
  set s' := storeAt st.phys e addr update
  have hframe : ∀ f, f ≠ frameOf e → s'.mem f = st.phys.mem f := by
    intro f hf
    funext i
    exact write_frame_ne _ _ _ hf i
  have hagreeTables : ∀ f, 0 < forestTables pageFormat st.phys.mem st.trees f →
      ∀ i, s'.mem f i = st.phys.mem f i := by
    intro f hf i
    rw [hframe f]
    rintro rfl
    omega
  have hpteEq : ∀ r ∈ st.roots, ∀ a < lowerHalf,
      pte s' r a = pte st.phys r a := by
    intro r hr a ha
    refine leafWord_congr pageFormat (vpath_inRange ha) fun f hf => ?_
    exact hagreeTables f (Nat.lt_of_lt_of_le hf
      (tableCount_le_forestTables pageFormat st.phys.mem (mem_trees hr) f))
  have hzero : st.phys.zeroPage ≠ frameOf e := by
    intro hzero
    obtain ⟨-, -, hpos⟩ := h.counted.mapped (mem_trees hroot) hfit hmap
    have hexact := h.counted.exact _ hlt
    have hheld := h.zeroHeld
    rw [hzero] at hheld
    omega
  refine ⟨⟨h.counted.memCongr hagreeTables rfl rfl, ?_, ?_, h.zeroHeld, ?_⟩,
    ?_⟩
  · intro r hr a ha d hpte
    exact h.alone r hr a ha d ((hpteEq r hr a ha).symm.trans hpte)
  · intro r hr a ha d hpte
    exact (forestWeight_congr pageFormat _ _ hagreeTables).trans
      (h.notTable r hr a ha d ((hpteEq r hr a ha).symm.trans hpte))
  · exact (hframe _ hzero).trans h.zeroed
  · have hkeep : ∀ r ∈ st.roots, ∀ a < lowerHalf,
        ¬(r = root ∧ a / pageSize = addr / pageSize) →
          view s' r a = view st.phys r a := by
      intro r hr a ha hdiff
      refine view_congr (hpteEq r hr a ha) fun d hpte => hframe _ ?_
      intro heq
      exact hdiff (h.unique hroot hfit hmap hone hr ha hpte heq)
    refine hagree.update (fun r hr _ => hr) ?_ ?_
    · intro _ a ha
      by_cases hpage : a / pageSize = addr / pageSize
      · have hsame : pte st.phys root a = some e := by
          rw [← hmap]
          exact leafWord_path_congr pageFormat
            ((vpath_samePage hfit ha).mpr hpage)
        have hword : s'.mem (frameOf e) = Function.update
            (st.phys.mem (frameOf e)) (wordIndex addr)
            (update (st.phys.mem (frameOf e) (wordIndex addr))) := by
          funext i
          simp only [s', storeAt, PhysMem.writeWord_mem, write,
            Function.update_apply, true_and]
        rw [hpage, Function.update_self, hagree root hroot addr hfit, view,
          view, hpteEq root hroot a ha, hsame, hmap]
        simp only [Option.map_some, RefPage.store, hrw, Bool.true_or, if_true,
          hword]
      · rw [Function.update_of_ne hpage, hagree root hroot a ha]
        exact (hkeep root hroot a ha fun hsame => hpage hsame.2).symm
    · intro r hr hne a ha
      exact hkeep r hr a ha fun hsame => hne hsame.1

/-- A user store is a store to the private page of the reference. -/
theorem store_step (h : st.Consistent) (hagree : st.Agrees ref) {update : Word → Word}
    (hroot : root ∈ st.roots)
    (hfit : addr < lowerHalf) (hmapped : (pte st.phys root addr).isSome)
    (hok : userStore st.phys root addr update = .ok s') :
    Consistent ⟨s', st.roots, st.held⟩ ∧
      Agrees ⟨s', st.roots, st.held⟩ (ref.step (.store root addr update)) := by
  obtain ⟨e, hmap⟩ := Option.isSome_iff_exists.mp hmapped
  rw [userStore, hmap] at hok
  dsimp only at hok
  split at hok
  · rename_i hrw
    obtain rfl := Except.ok.inj hok
    exact write_step h hagree update hroot hfit hmap hrw
  rename_i hrw
  by_cases hcow : hasFlag e flagsCow = true
  · rw [bind_ok] at hok
    obtain ⟨⟨b, sc⟩, hhandled, hok⟩ := hok
    obtain ⟨rfl, hc, hagreec, e', hmap', hrw'⟩ := cow_step h hagree hroot hfit
      hmap hcow hhandled
    simp only [if_true, hmap', hrw'] at hok
    obtain rfl := Except.ok.inj hok
    exact write_step hc hagreec update hroot hfit hmap' hrw'
  · rw [cowHandler_notCow hmap (by simpa using hcow)] at hok
    obtain rfl : st.phys = s' := Except.ok.inj hok
    refine ⟨h, hagree.update (fun r hr _ => hr) ?_ fun _ _ _ _ _ => rfl⟩
    intro _ a ha
    rw [← hagree root hroot a ha]
    by_cases hpage : a / pageSize = addr / pageSize
    · rw [hpage, Function.update_self, hagree root hroot addr hfit, view, hmap]
      simp [RefPage.store, hrw, hcow]
    · rw [Function.update_of_ne hpage]

end Spaces

/-! ### Runs -/

theorem cowHandler_zeroPage {s s' : PhysMem} {b : Bool}
    (h : cowHandler s root addr = .ok (b, s')) : s'.zeroPage = s.zeroPage := by
  cases hmap : pte s root addr with
  | none =>
      rw [cowHandler_unmapped hmap] at h
      obtain ⟨-, rfl⟩ := Prod.mk.inj (Except.ok.inj h)
      rfl
  | some e =>
      obtain ⟨pdpt, pd, pt, hw, hpres, -⟩ := walked_of_pte hmap
      rw [cowHandler_mapped hw hpres, resolveCow] at h
      dsimp only at h
      split at h
      · split at h
        · rw [bind_ok] at h
          obtain ⟨⟨new, s₁⟩, hget, h⟩ := h
          obtain ⟨-, -, rfl⟩ := getAvailableAddress_ok hget
          obtain ⟨-, rfl⟩ := Prod.mk.inj (Except.ok.inj h)
          rfl
        · obtain ⟨-, rfl⟩ := Prod.mk.inj (Except.ok.inj h)
          rfl
      · obtain ⟨-, rfl⟩ := Prod.mk.inj (Except.ok.inj h)
        rfl

theorem userStore_zeroPage {s s' : PhysMem}
    {update : Word → Word} (h : userStore s root addr update = .ok s') :
    s'.zeroPage = s.zeroPage := by
  rw [userStore] at h
  split at h
  · obtain rfl := Except.ok.inj h
    rfl
  split at h
  · obtain rfl := Except.ok.inj h
    rfl
  rw [bind_ok] at h
  obtain ⟨⟨b, sc⟩, hcow, h⟩ := h
  rw [← cowHandler_zeroPage hcow]
  dsimp only at h
  split at h
  · split at h
    · obtain rfl := Except.ok.inj h
      rfl
    · split at h <;> obtain rfl := Except.ok.inj h <;> rfl
  · obtain rfl := Except.ok.inj h
    rfl

/-- A step that fits keeps the counts consistent and follows the reference. -/
theorem SpaceStep.refines {st' : Spaces} {op : SpaceOp}
    (hstep : SpaceStep st op st') (hfits : SpaceFits st op)
    (h : st.Consistent) (hagree : st.Agrees ref) :
    st'.Consistent ∧ st'.Agrees (ref.step op) := by
  cases hstep with
  | clonePageTables hroot hok =>
      exact Spaces.clone_step h hagree hroot hfits hok
  | allocZeroRegion hroot hfit hok =>
      exact Spaces.allocZero_step h hagree hroot hfit hfits hok
  | freePage hroot hfit => exact Spaces.freePage_step h hagree hroot hfit
  | freePageTables hroot => exact Spaces.freeTables_step h hagree hroot
  | store hroot hfit hmapped hok =>
      exact Spaces.store_step h hagree hroot hfit hmapped hok

theorem SpaceStep.zeroPage {st' : Spaces} {op : SpaceOp}
    (hstep : SpaceStep st op st') (hfits : SpaceFits st op)
    (h : st.Consistent) : st'.phys.zeroPage = st.phys.zeroPage := by
  cases hstep with
  | clonePageTables hroot hok =>
      exact (clonePageTables_spec (h.front hroot) hfits hok).zero
  | allocZeroRegion hroot hfit hok =>
      exact (allocZeroRegion_spec (h.front hroot) h.zeroHeld hfit hfits
        hok).2.zero
  | freePage hroot hfit => exact (freePage_globals _ _ _).2
  | freePageTables hroot =>
      exact (freePageTables_spec (h.front hroot)).2.1.zero
  | store hroot hfit hmapped hok => exact userStore_zeroPage hok

/-- The reference that starts from what the address spaces read now. -/
def Spaces.reference (st : Spaces) : Reference := fun root page =>
  view st.phys root (page * pageSize)

theorem Spaces.agrees_reference (st : Spaces) : st.Agrees st.reference := by
  intro root _ a ha
  have hlt : a / pageSize * pageSize < lowerHalf :=
    Nat.lt_of_le_of_lt (Nat.div_mul_le_self a pageSize) ha
  have hpage : a / pageSize * pageSize / pageSize = a / pageSize :=
    Nat.mul_div_cancel _ (by decide)
  have hpte : pte st.phys root (a / pageSize * pageSize) = pte st.phys root a :=
    leafWord_path_congr pageFormat ((vpath_samePage ha hlt).mpr hpage)
  rw [reference, view, view, hpte]

/-- Copy-on-write shows every address space what eager copying shows it, the
zero page stays zero, and a store is seen by the address space that makes it
only. -/
theorem run_refines_eagerCopy {start finish : Spaces} {ops : List SpaceOp}
    (hstart : start.Consistent)
    (hrun : Run (fun st op st' => SpaceStep st op st' ∧ SpaceFits st op)
      start ops finish) :
    finish.Agrees (ops.foldl Reference.step start.reference) ∧
    finish.phys.mem start.phys.zeroPage = (fun _ => 0#64) ∧
    ∀ root addr update next, SpaceStep finish (.store root addr update) next →
      ∀ other ∈ finish.roots, other ≠ root → ∀ a < lowerHalf,
        view next.phys other a = view finish.phys other a := by
  obtain ⟨h, hagree, hzero⟩ := hrun.simulation
    (fun st ref => st.Consistent ∧ st.Agrees ref ∧
      st.phys.zeroPage = start.phys.zeroPage)
    Reference.step
    (fun st op st' ref hstep hrel =>
      have hnext := hstep.1.refines hstep.2 hrel.1 hrel.2.1
      ⟨hnext.1, hnext.2, (hstep.1.zeroPage hstep.2 hrel.1).trans hrel.2.2⟩)
    ⟨hstart, start.agrees_reference, rfl⟩
  refine ⟨hagree, hzero ▸ h.zeroed, ?_⟩
  intro root addr update next hstore other hother hne a ha
  have hsame : next.roots = finish.roots := by
    cases hstore
    rfl
  obtain ⟨-, hafter⟩ := hstore.refines trivial h hagree
  rw [← hagree other hother a ha, ← hafter other (hsame ▸ hother) a ha]
  exact congrFun (Function.update_of_ne hne _ _) _

/-! ### The machine with 128 GiB of memory -/

def largeSpaces (s : PhysMem) : Spaces :=
  ⟨s, [largeRoot], (bootSystem largeRoot largeMemmap s).held⟩

theorem largeSpaces_consistent {s : PhysMem}
    (hinit : initPaging largeRoot largeMemmap (fun _ _ => 0#64) = .ok s)
    (habs : ∀ a < lowerHalf, pte s largeRoot a = none) :
    (largeSpaces s).Consistent := by
  have hboot := bootSystem_consistent largeRoot_bootTables hinit
  have hnone : ∀ root ∈ (largeSpaces s).roots, ∀ a < lowerHalf, ∀ e,
      pte s root a ≠ some e := by
    intro root hroot a ha e hpte
    obtain rfl := List.mem_singleton.mp hroot
    rw [habs a ha] at hpte
    cases hpte
  refine ⟨hboot.counted, ?_, ?_, hboot.zero, ?_⟩
  · intro root hroot a ha e hpte
    exact absurd hpte (hnone root hroot a ha e)
  · intro root hroot a ha e hpte
    exact absurd hpte (hnone root hroot a ha e)
  · exact funext (initPaging_ok hinit).2.2.2.2.2.1

theorem cowHandler_progress {s : PhysMem} {k : Nat} (h : Roomy s k) (hk : k < s.usablePageCount)
    (root addr : Nat) : ∃ resolved s', cowHandler s root addr = .ok (resolved, s') := by
  cases hpte : pte s root addr with
  | none => exact ⟨_, _, cowHandler_unmapped hpte⟩
  | some e =>
      obtain ⟨pdpt, pd, pt, hw, hpres, -⟩ := walked_of_pte hpte
      obtain ⟨f, -, -, hget⟩ := getAvailableAddress_progress h hk
      rw [cowHandler_mapped hw hpres, resolveCow, hget]
      dsimp only
      split
      · split
        · exact ⟨_, _, rfl⟩
        · exact ⟨_, _, rfl⟩
      · exact ⟨_, _, rfl⟩

theorem userStore_progress {s : PhysMem} {k : Nat} (h : Roomy s k) (hk : k < s.usablePageCount)
    (root addr : Nat) (update : Word → Word) : ∃ s', userStore s root addr update = .ok s' := by
  rw [userStore]
  split
  · exact ⟨_, rfl⟩
  split
  · exact ⟨_, rfl⟩
  obtain ⟨resolved, s', hcow⟩ := cowHandler_progress h hk root addr
  rw [hcow]
  simp only [bind, Except.bind]
  split
  · split
    · exact ⟨_, rfl⟩
    · split <;> exact ⟨_, rfl⟩
  · exact ⟨_, rfl⟩

/-- Two pages of zeros, and a store to the first one. -/
theorem run_refines_eagerCopy_large : ∃ s finish,
    initPaging largeRoot largeMemmap (fun _ _ => 0#64) = .ok s ∧
    (largeSpaces s).Consistent ∧
    Run (fun st op st' => SpaceStep st op st' ∧ SpaceFits st op) (largeSpaces s)
      [.allocZeroRegion largeRoot 0 (2 * pageSize) userFlags,
        .store largeRoot 8 fun word => word + 7#64] finish ∧
    ((view finish.phys largeRoot 0).map fun page => page.data 1) = some 7#64 ∧
    ((view finish.phys largeRoot pageSize).map fun page => page.data 1) = some 0#64 := by
  obtain ⟨s, hinit, hroomy, husable, hzne, hone, habs⟩ := large_boots
  have hcons := largeSpaces_consistent hinit habs
  have hfits : s.memoryBitmap s.zeroPage +
      pageRounds 0 (pageAlign (0 + 2 * pageSize)) < 2 ^ 32 := by
    rw [hone]
    decide
  have hc : Counted s (largeSpaces s).held [(4, largeRoot)] := hcons.counted
  obtain ⟨s₁, hok₁, hroomy₁⟩ := allocZeroRegion_progress userFlags hc hcons.zeroHeld hzne
    (by decide) (by decide) hfits habs hroomy (by rw [husable]; decide)
  obtain ⟨-, hmapped⟩ := allocZeroRegion_spec hc hcons.zeroHeld (by decide) hfits hok₁
  obtain ⟨s₂, hok₂⟩ := userStore_progress hroomy₁ (by rw [hmapped.usable, husable]; decide)
    largeRoot 8 fun word => word + 7#64
  have hpte : (pte s₁ largeRoot 8).isSome := by
    rw [hmapped.pte 8 (by decide), if_pos (by decide)]
    rfl
  have hroot : largeRoot ∈ [largeRoot] := List.mem_singleton.mpr rfl
  have halloc : SpaceStep (largeSpaces s)
      (.allocZeroRegion largeRoot 0 (2 * pageSize) userFlags) { largeSpaces s with phys := s₁ } :=
    .allocZeroRegion hroot (by decide) hok₁
  have hstore : SpaceStep { largeSpaces s with phys := s₁ }
      (.store largeRoot 8 fun word => word + 7#64) { largeSpaces s with phys := s₂ } :=
    .store hroot (by decide) hpte hok₂
  have hrun : Run (fun st op st' => SpaceStep st op st' ∧ SpaceFits st op) (largeSpaces s) _ _ :=
    .cons ⟨halloc, hfits⟩ (.single ⟨hstore, trivial⟩)
  obtain ⟨hagree, -⟩ := run_refines_eagerCopy hcons hrun
  refine ⟨s, _, hinit, hcons, hrun, ?_, ?_⟩
  · rw [← hagree largeRoot hroot 0 (by decide)]
    rfl
  · rw [← hagree largeRoot hroot pageSize (by decide)]
    rfl

/-- A store to a copy-on-write page whose frame has a count below two is made in
the frame itself, whoever else maps it. -/
theorem userStore_inPlace {s : PhysMem} {held : Nat → Nat} {n : Nat}
    {rest : List (Nat × Nat)} (update : Word → Word)
    (hc : Counted (s.setCount (frameOf e) n) held ((4, root) :: rest))
    (hfit : addr < lowerHalf) (hmap : pte s root addr = some e)
    (hrw : hasFlag e flagsRw = false) (hcow : hasFlag e flagsCow = true)
    (hlow : s.memoryBitmap (frameOf e) ≤ 1)
    (hnotable : forestTables pageFormat s.mem ((4, root) :: rest)
      (frameOf e) = 0) :
    ∃ s', userStore s root addr update = .ok s' ∧
      s'.mem (frameOf e) = Function.update (s.mem (frameOf e)) (wordIndex addr)
        (update (s.mem (frameOf e) (wordIndex addr))) ∧
      ∀ a < lowerHalf, a / pageSize ≠ addr / pageSize →
        pte s' root a = pte s root a := by
  obtain ⟨pdpt, pd, pt, hw, hpres, he⟩ := walked_of_pte hmap
  obtain ⟨l1, hd1⟩ := hw.pt
  obtain ⟨hpres', htarget, hrw', -, -⟩ := reusedWord_spec e
  set e' := (e &&& ~~~flagsCow) ||| flagsRw
  set sc := orWord (s.writeWord pt (vpath addr 1) (e &&& ~~~flagsCow)) pt
    (vpath addr 1) flagsRw with hsc
  have hmem : sc.mem = write s.mem pt (vpath addr 1) e' := by
    rw [hsc, orWord, PhysMem.writeWord_mem, PhysMem.writeWord_mem, write_write,
      write_same]
  have hhandled : cowHandler s root addr = .ok (true, sc) := by
    rw [cowHandler_mapped hw hpres, resolveCow, he]
    simp only [hcow, if_true, Nat.not_lt.mpr hlow, if_false]
    rfl
  have hset : LeafSet root rest (vpath addr)
      (if present e' then some e' else none) (s.setCount (frameOf e) n) sc :=
    hc.leafSet (vpath_inRange hfit) hd1 e' hmem rfl rfl
  rw [if_pos (hpres'.trans (he ▸ hpres))] at hset
  have hmap' : pte sc root addr = some e' := by
    rw [hset.pte hfit hfit, if_pos rfl]
  have hdata : sc.mem (frameOf e) = s.mem (frameOf e) := hset.data _ hnotable
  refine ⟨storeAt sc e' addr update, ?_, ?_, ?_⟩
  · rw [userStore, hmap]
    simp only [hrw, Bool.false_eq_true, if_false, hhandled]
    rw [bind_ok]
    refine ⟨_, rfl, ?_⟩
    simp only [if_true, hmap', hrw']
  · funext i
    rw [storeAt, htarget, hdata]
    simp only [PhysMem.writeWord_mem, write, Function.update_apply, true_and,
      hdata]
  · intro a ha hpage
    have hsc : pte sc root a = pte s root a := by
      rw [hset.pte hfit ha, if_neg hpage]
      rfl
    rw [← hsc]
    apply leafWord_congr pageFormat (vpath_inRange ha)
    intro f hf i
    refine write_frame_ne _ _ _ ?_ i
    rintro rfl
    have htab := (hset.tables (frameOf e)).trans hnotable
    rw [htarget, ← Nat.not_le] at hf
    rw [forestTables_cons] at htab
    omega

/-- With the count of the zero page wrapped, one store to a page of zeros is
read at another. -/
theorem zero_page_written : ∃ s finish,
    initPaging largeRoot largeMemmap (fun _ _ => 0#64) = .ok s ∧
    (largeSpaces s).Consistent ∧
    Run SpaceStep (largeSpaces s)
      [.allocZeroRegion largeRoot wrapStart wrapSize userFlags,
        .allocZeroRegion largeRoot wrapNext pageSize userFlags,
        .store largeRoot wrapNext fun _ => 1#64] finish ∧
    finish.phys.mem s.zeroPage ≠ (fun _ => 0#64) ∧
    ¬ finish.Agrees ([SpaceOp.allocZeroRegion largeRoot wrapStart wrapSize
      userFlags, .allocZeroRegion largeRoot wrapNext pageSize userFlags,
      .store largeRoot wrapNext fun _ => 1#64].foldl Reference.step
        (largeSpaces s).reference) := by
  obtain ⟨s, s₁, s₂, hinit, -, habs, hok₁, hok₂, hzero, -, hcount, hc, hfirst,
    hnext, hnotable, hdata⟩ := large_wraps
  have hzlt : s.zeroPage < s.usablePageCount := (initPaging_ok hinit).2.1
  obtain ⟨-, htarget, hrw, hcow⟩ := zeroWord_spec
    (Nat.lt_of_lt_of_le hzlt s.usable_le) userFlags
  set e := zeroWord s.zeroPage userFlags
  rw [← htarget] at hc hnotable hcount hdata
  obtain ⟨s₃, hok₃, hword, hkeep⟩ := userStore_inPlace (fun _ => 1#64) hc
    (by decide) hnext hrw (hcow.trans (by decide)) (by omega) hnotable
  have hroot : largeRoot ∈ (largeSpaces s).roots := List.mem_singleton.mpr rfl
  have hone : s₃.mem (frameOf e) 0 = 1#64 := by
    rw [hword, show wordIndex wrapNext = 0 by decide, Function.update_self]
  refine ⟨s, ⟨s₃, [largeRoot], _⟩, hinit, largeSpaces_consistent hinit habs,
    .cons (.allocZeroRegion hroot (by decide) hok₁)
      (.cons (.allocZeroRegion hroot (by decide) hok₂)
        (.single (.store hroot (by decide) (by
          change (pte s₂ largeRoot wrapNext).isSome = true
          rw [hnext]
          rfl) hok₃))), ?_, ?_⟩
  · intro hall
    change s₃.mem s.zeroPage = _ at hall
    rw [← htarget] at hall
    rw [hall] at hone
    exact absurd hone (by decide)
  · intro hagree
    have hread := hagree largeRoot hroot wrapStart (by decide)
    have hview : view s₃ largeRoot wrapStart =
        some ⟨s₃.mem (frameOf e), true⟩ := by
      rw [view, hkeep wrapStart (by decide) (by decide), hfirst,
        Option.map_some, hrw, hcow]
      rfl
    have hpage : wrapStart / pageSize ≠ wrapNext / pageSize := by decide
    have hout : ¬ InPages wrapNext
        (pageRounds wrapNext (pageAlign (wrapNext + pageSize)))
        (wrapStart / pageSize * pageSize) := by decide
    have hin : InPages wrapStart
        (pageRounds wrapStart (pageAlign (wrapStart + wrapSize)))
        (wrapStart / pageSize * pageSize) := by decide
    simp only [List.foldl_cons, List.foldl_nil, Reference.step,
      Function.update_self, Function.update_of_ne hpage, hout, hin, if_true,
      if_false] at hread
    have hdata : (fun _ => 0#64) = s₃.mem (frameOf e) :=
      congrArg RefPage.data (Option.some.inj (hread.trans hview))
    rw [← hdata] at hone
    exact absurd hone (by decide)

end GlitchedOS
