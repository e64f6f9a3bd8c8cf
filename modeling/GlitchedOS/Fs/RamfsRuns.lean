/-
Runs of calls on a ramfs.  Every entry that is linked or open has a live directory
as long as no call of the run frees or moves a directory that still has entries in
it, and no path is too long for the buffers it is copied to.
-/
import GlitchedOS.Fs.RamfsEntries

namespace GlitchedOS

/-! ### Blocks -/

namespace Ramfs

theorem truncateBlocks_spec {blocks : List (List UInt8)} {oldSize : Nat} (newSize : Nat)
    (h : ramfsBlockCount oldSize ≤ blocks.length) :
    ∃ blocks', truncateBlocks blocks oldSize newSize = some blocks' ∧
      ramfsBlockCount newSize ≤ blocks'.length := by
  rw [truncateBlocks]
  dsimp only
  split
  · exact ⟨_, rfl, by simp; omega⟩
  · split
    · have hne : blocks ≠ [] := by
        rintro rfl
        simp only [List.length_nil] at h
        omega
      rw [if_neg hne]
      split
      · exact ⟨_, rfl, by simp; omega⟩
      · exact ⟨_, rfl, by simp; omega⟩
    · exact ⟨blocks, rfl, by omega⟩

/-- A write leaves no fewer blocks, and enough for its end. -/
theorem writeBlocks_length (blocks : List (List UInt8)) (index blockOffset : Nat)
    (buffer : List UInt8) (hindex : index < blocks.length)
    (hoffset : blockOffset < ramfsBlockSize) :
    blocks.length ≤ (writeBlocks blocks index blockOffset buffer).length ∧
      (index * ramfsBlockSize + blockOffset + buffer.length + ramfsBlockSize - 1) /
          ramfsBlockSize ≤ (writeBlocks blocks index blockOffset buffer).length := by
  induction hn : buffer.length using Nat.strong_induction_on generalizing blocks index
    blockOffset buffer with
  | _ n ih =>
  subst hn
  have hsize : ramfsBlockSize = 4088 := rfl
  rw [writeBlocks]
  by_cases hempty : buffer = []
  · rw [if_pos (.inl hempty), hempty, List.length_nil]
    refine ⟨Nat.le_refl _, ?_⟩
    simp only [hsize] at *
    omega
  · rw [if_neg (by rw [not_or]; exact ⟨hempty, by omega⟩)]
    have hpos := List.length_pos_iff.mpr hempty
    dsimp only
    generalize hwritten : blocks.modify index _ = written
    have hlength : written.length = blocks.length := by rw [← hwritten]; simp
    generalize hbehind : (if index + 1 < written.length then written else written ++ [zeroBlock]) =
      behind
    have hroom : blocks.length ≤ behind.length ∧ index + 1 < behind.length := by
      rw [← hbehind, ← hlength]
      split
      · exact ⟨Nat.le_refl _, by assumption⟩
      · simp; omega
    obtain ⟨hkept, hrest⟩ := ih _ (by simp only [List.length_drop]; omega) behind (index + 1) 0
      (buffer.drop (min (ramfsBlockSize - blockOffset) buffer.length)) hroom.2 (by omega) rfl
    refine ⟨Nat.le_trans hroom.1 hkept, Nat.le_trans (Nat.div_le_div_right ?_) hrest⟩
    simp only [List.length_drop]
    simp only [hsize] at *
    omega

theorem ramfsBlockCount_le (size : Nat) :
    ramfsBlockCount size ≤ (size + ramfsBlockSize - 1) / ramfsBlockSize :=
  Nat.div_le_div_right (Nat.mod_le _ _)

theorem writeBlocks_sized {blocks : List (List UInt8)} {size : Nat}
    (h : ramfsBlockCount size ≤ blocks.length) (buffer : List UInt8) (offset : Nat) :
    ramfsBlockCount (max size (offset + buffer.length)) ≤
      (writeBlocks
        (blocks ++ List.replicate (offset / ramfsBlockSize + 1 - blocks.length) zeroBlock)
        (offset / ramfsBlockSize) (offset % ramfsBlockSize) buffer).length := by
  have hpos : 0 < ramfsBlockSize := by decide
  have hindex : offset / ramfsBlockSize < (blocks ++
      List.replicate (offset / ramfsBlockSize + 1 - blocks.length) zeroBlock).length := by
    rw [List.length_append, List.length_replicate]
    omega
  obtain ⟨hkept, hend⟩ := writeBlocks_length _ _ _ buffer hindex (Nat.mod_lt offset hpos)
  rw [Nat.div_add_mod'] at hend
  rw [List.length_append] at hkept
  rcases Nat.le_total size (offset + buffer.length) with hle | hle
  · rw [Nat.max_eq_right hle]
    exact Nat.le_trans (ramfsBlockCount_le _) hend
  · rw [Nat.max_eq_left hle]
    exact Nat.le_trans h (Nat.le_trans (Nat.le_add_right _ _) hkept)

end Ramfs

namespace RamfsFiles

variable {s : RamfsFiles} {kids : Nat → List Nat}
variable {p new : Nat} {path : List Char}

/-! ### The invariant -/

/-- An entry counts its open handles, is only deleted in part while it is open, and
has blocks for its size. -/
structure EntryOk (s : RamfsFiles) (p : Nat) : Prop where
  opened : (s.fs.dirents p).openCount = s.handles.count p
  hidden : (s.fs.dirents p).toDelete = true → 0 < (s.fs.dirents p).openCount
  sized : ramfsBlockCount (s.fs.dirents p).fileSize ≤ (s.fs.dirents p).blocks.length

/-- Every open entry stands in the list of its directory. -/
structure Valid (s : RamfsFiles) (kids : Nat → List Nat) : Prop where
  listed : s.fs.Listed kids
  entries : ∀ p ∈ s.fs.live, s.EntryOk p
  root : (s.fs.dirents s.fs.root).toDelete = false
  held : ∀ p ∈ s.handles, s.fs.InTree kids p

/-- The lists of the directories are well formed and hold live entries, and every
entry that is linked or open is the root or has a live directory. -/
def Sound (s : RamfsFiles) : Prop :=
  ∃ kids : Nat → List Nat,
    (∀ d ∈ s.fs.live, (s.fs.dirents d).type = .dir →
      Doubly (fun p => (s.fs.dirents p).next) (fun p => (s.fs.dirents p).previous) none
        (s.fs.dirents d).child (kids d) ∧ ∀ p ∈ kids d, p ∈ s.fs.live) ∧
    ∀ p, (p ∈ s.handles ∨ ∃ d ∈ s.fs.live, p ∈ kids d) → p ∈ s.fs.live ∧
      (p = s.fs.root ∨ ∃ d ∈ s.fs.live, (s.fs.dirents p).parent = some d ∧
        (s.fs.dirents d).type = .dir)

theorem Valid.sound (h : s.Valid kids) : s.Sound := by
  have htree : ∀ p, s.fs.InTree kids p → p ∈ s.fs.live ∧
      (p = s.fs.root ∨ ∃ d ∈ s.fs.live, (s.fs.dirents p).parent = some d ∧
        (s.fs.dirents d).type = .dir) := by
    intro p hp
    refine ⟨h.listed.mem_live hp, hp.imp_right ?_⟩
    rintro ⟨d, hd, hmem⟩
    have hdir := h.listed.dir d hd (List.ne_nil_of_mem hmem)
    exact ⟨d, hd, (h.listed.entry d hd p hmem).2.2, hdir⟩
  refine ⟨kids, fun d hd _ => ⟨h.listed.list d hd, fun p hp => (h.listed.entry d hd p hp).1⟩, ?_⟩
  rintro p (hp | hp)
  · exact htree p (h.held p hp)
  · exact htree p (.inr hp)

/-- A call has a result, and the invariant holds again. -/
def Safe (result : Option (Int × RamfsFiles)) : Prop :=
  ∃ res s' kids, result = some (res, s') ∧ s'.Valid kids

theorem Valid.safe (h : s.Valid kids) (res : Int) : Safe (some (res, s)) :=
  ⟨res, s, kids, rfl, h⟩

/-- The invariant but for what the entry `p` says about itself. -/
structure ValidBut (s : RamfsFiles) (kids : Nat → List Nat) (p : Nat) : Prop where
  listed : s.fs.Listed kids
  entries : ∀ q ∈ s.fs.live, q ≠ p → s.EntryOk q
  root : (s.fs.dirents s.fs.root).toDelete = false
  held : ∀ q ∈ s.handles, s.fs.InTree kids q

theorem ValidBut.valid (h : s.ValidBut kids p) (hp : s.EntryOk p) : s.Valid kids where
  listed := h.listed
  entries q hq := by
    by_cases hqp : q = p
    · exact hqp ▸ hp
    · exact h.entries q hq hqp
  root := h.root
  held := h.held

/-! ### Operations that move no entry -/

/-- A change of an entry, and of what is open, that moves nothing. -/
theorem Valid.setDirent (h : s.Valid kids) (p : Nat) (f : RamfsDirent → RamfsDirent)
    (handles : List Nat)
    (hf : ∀ d, (f d).previous = d.previous ∧ (f d).next = d.next ∧ (f d).parent = d.parent ∧
      (f d).child = d.child ∧ (f d).type = d.type)
    (hroot : s.fs.root = p → (f (s.fs.dirents p)).toDelete = false)
    (hcount : ∀ q, q ≠ p → handles.count q = s.handles.count q)
    (hheld : ∀ q ∈ handles, s.fs.InTree kids q) :
    ValidBut ⟨s.fs.setDirent p f, handles⟩ kids p where
  listed := (Ramfs.sameLinks_setDirent s.fs p hf).listed h.listed
  entries q hq hqp := by
    obtain ⟨hopened, hhidden, hsized⟩ := h.entries q hq
    refine ⟨?_, ?_, ?_⟩
    · rw [Ramfs.setDirent_ne hqp, hopened, hcount q hqp]
    · rwa [Ramfs.setDirent_ne hqp]
    · rwa [Ramfs.setDirent_ne hqp]
  root := by
    by_cases heq : s.fs.root = p
    · rw [show (s.fs.setDirent p f).root = p from heq, Ramfs.setDirent_self]
      exact hroot heq
    · show ((s.fs.setDirent p f).dirents s.fs.root).toDelete = false
      rw [Ramfs.setDirent_ne heq]
      exact h.root
  held := hheld

theorem Valid.openDirent (h : s.Valid kids) (hp : s.fs.InTree kids p) :
    ∃ fs, s.fs.openDirent p = some fs ∧ Valid ⟨fs, s.handles ++ [p]⟩ kids := by
  have hlive := h.listed.mem_live hp
  obtain ⟨hopened, hhidden, hsized⟩ := h.entries p hlive
  refine ⟨_, Ramfs.modify_of_mem hlive _, ValidBut.valid (h.setDirent p _ _ ?_ ?_ ?_ ?_)
    ⟨?_, ?_, ?_⟩⟩
  · exact fun d => ⟨rfl, rfl, rfl, rfl, rfl⟩
  · exact fun heq => heq ▸ h.root
  · exact fun q hq => by simp [Ne.symm hq]
  · intro q hq
    rcases List.mem_append.mp hq with hq | hq
    · exact h.held q hq
    · exact List.mem_singleton.mp hq ▸ hp
  · simp [Ramfs.setDirent_self, hopened]
  · simp [Ramfs.setDirent_self]
  · rwa [Ramfs.setDirent_self]

theorem Valid.setBlocks (h : s.Valid kids) (hp : p ∈ s.fs.live) {size : Nat}
    {blocks : List (List UInt8)} (hsized : ramfsBlockCount size ≤ blocks.length) :
    Valid ⟨s.fs.setDirent p fun d => { d with fileSize := size, blocks := blocks }, s.handles⟩
      kids := by
  obtain ⟨hopened, hhidden, -⟩ := h.entries p hp
  refine ValidBut.valid (h.setDirent p _ _ ?_ ?_ ?_ h.held) ⟨?_, ?_, ?_⟩
  · exact fun d => ⟨rfl, rfl, rfl, rfl, rfl⟩
  · exact fun heq => heq ▸ h.root
  · exact fun q _ => rfl
  · rwa [Ramfs.setDirent_self]
  · rwa [Ramfs.setDirent_self]
  · rwa [Ramfs.setDirent_self]

theorem Valid.truncate (h : s.Valid kids) (hp : p ∈ s.fs.live) (size : Nat) :
    ∃ fs, s.fs.truncate p size = some (0, fs) ∧ Valid ⟨fs, s.handles⟩ kids := by
  obtain ⟨blocks, hblocks, hlength⟩ := Ramfs.truncateBlocks_spec size (h.entries p hp).sized
  refine ⟨_, ?_, h.setBlocks hp hlength⟩
  simp [Ramfs.truncate, Ramfs.get_of_mem hp, hblocks, Ramfs.modify_of_mem hp]

theorem Valid.write (h : s.Valid kids) (hp : p ∈ s.fs.live) (device : Int)
    (buffer : List UInt8) (offset : Nat) :
    Safe (s.withFs (s.fs.write device p buffer offset)) := by
  rw [Ramfs.write]
  by_cases hro : s.fs.readOnly = true
  · rw [if_pos hro]
    exact h.safe _
  · rw [if_neg hro]
    simp only [Ramfs.get_of_mem hp, Option.bind_eq_bind, Option.bind_some]
    split
    · exact h.safe _
    · split
      · exact h.safe _
      · rw [Ramfs.modify_of_mem hp, Option.bind_some]
        exact ⟨_, _, kids, rfl, h.setBlocks hp
          (Ramfs.writeBlocks_sized (h.entries p hp).sized _ _)⟩

/-! ### Freeing entries -/

theorem ValidBut.freeDirent {d : Nat} (h : s.ValidBut kids p) (hd : d ∈ s.fs.live)
    (hp : p ∈ kids d) (hempty : (s.fs.dirents p).child = none) (hclosed : p ∉ s.handles) :
    Safe (s.withFs (s.fs.freeDirent p)) := by
  obtain ⟨l, r, hkids⟩ := List.append_of_mem hp
  obtain ⟨hlive, hroot, -⟩ := h.listed.entry d hd p hp
  have hlisted := (h.listed.unlinked hd hkids).erase hroot
    fun d' hd' => h.listed.not_mem_erase hd'
  have hnone : kids p = [] := by
    have hlist := (h.listed.list p hlive).start_eq
    rw [hempty] at hlist
    exact List.head?_eq_none_iff.mp hlist.symm
  refine ⟨0, ⟨_, s.handles⟩, _, ?_, hlisted, ?_, h.root, ?_⟩
  · simp [withFs, Ramfs.freeDirent, h.listed.unlink hd hkids]
  · intro q hq
    obtain ⟨hne, hq⟩ := Finset.mem_erase.mp hq
    obtain ⟨hopened, hhidden, hsized⟩ := h.entries q hq hne
    exact ⟨hopened, hhidden, hsized⟩
  · intro q hq
    have hqp : q ≠ p := fun heq => hclosed (heq ▸ hq)
    refine (h.held q hq).imp_right ?_
    rintro ⟨d', hd', hmem⟩
    have hd'p : d' ≠ p := fun heq => by simp [heq, hnone] at hmem
    exact ⟨d', Finset.mem_erase.mpr ⟨hd'p, hd'⟩, (List.mem_erase_of_ne hqp).mpr hmem⟩

theorem Valid.closeDirent (h : s.Valid kids) {l r : List Nat}
    (hhandles : s.handles = l ++ p :: r)
    (hlast : (s.fs.dirents p).toDelete = true → (s.fs.dirents p).openCount = 1 →
      (s.fs.dirents p).child = none) :
    Safe (withFs ⟨s.fs, l ++ r⟩ (s.fs.closeDirent p)) := by
  have htree := h.held p (by simp [hhandles])
  have hlive := h.listed.mem_live htree
  have hcount : ∀ q, q ≠ p → (l ++ r).count q = s.handles.count q := fun q hq => by
    simp [hhandles, Ne.symm hq]
  obtain ⟨hopened, hhidden, hsized⟩ := h.entries p hlive
  rw [hhandles, List.count_append, List.count_cons_self, ← Nat.add_assoc,
    ← List.count_append] at hopened
  have hrest : ∀ q ∈ l ++ r, q ∈ s.handles := fun q hq => by
    rw [hhandles]
    simpa [or_left_comm] using Or.inr (List.mem_append.mp hq)
  have hbut := h.setDirent p (fun d => { d with openCount := d.openCount - 1 }) (l ++ r)
    (fun d => ⟨rfl, rfl, rfl, rfl, rfl⟩) (fun heq => heq ▸ h.root) hcount
    fun q hq => h.held q (hrest q hq)
  have hself := Ramfs.setDirent_self (s := s.fs) p
    fun d => { d with openCount := d.openCount - 1 }
  rw [hopened, Nat.add_sub_cancel] at hself
  rw [Ramfs.closeDirent, Ramfs.modify_of_mem hlive, Option.bind_eq_bind, Option.bind_some]
  have hlive' : (s.fs.setDirent p fun d => { d with openCount := d.openCount - 1 }).live =
      s.fs.live := rfl
  generalize (s.fs.setDirent p fun d => { d with openCount := d.openCount - 1 }) = fs
    at hbut hself hlive'
  rw [Ramfs.get_of_mem (hlive' ▸ hlive), Option.bind_eq_bind, Option.bind_some, hself]
  split
  · rename_i hclosed
    obtain ⟨hzero, hdeleted⟩ := hclosed
    have hroot : p ≠ s.fs.root := fun heq => by simp [heq ▸ h.root] at hdeleted
    obtain ⟨d, hd, hmem⟩ := htree.resolve_left hroot
    have hone : (s.fs.dirents p).openCount = 1 := by rw [hopened]; exact congrArg (· + 1) hzero
    exact hbut.freeDirent (hlive' ▸ hd) hmem (hself ▸ hlast hdeleted hone)
      (List.count_eq_zero.mp hzero)
  · rename_i hopen
    refine (hbut.valid ⟨?_, ?_, ?_⟩).safe 0
    · rw [hself]
    · rw [hself]
      exact fun hdeleted => Nat.pos_of_ne_zero fun hzero => hopen ⟨hzero, hdeleted⟩
    · rwa [hself]

theorem Valid.delete (h : s.Valid kids) (hfits : Ramfs.FitsNames path)
    (hfound : ∀ p, s.fs.lookupPath path = some (.ok p) → s.fs.readOnly = false →
      p ≠ s.fs.root ∧ ((s.fs.dirents p).openCount = 0 → (s.fs.dirents p).child = none)) :
    Safe (s.withFs (s.fs.delete path)) := by
  rw [Ramfs.delete]
  by_cases hro : s.fs.readOnly = true
  · rw [if_pos hro]
    exact h.safe _
  · rw [if_neg hro]
    obtain ⟨found, hget, htree⟩ := h.listed.getDirent hfits
    rw [hget, Option.bind_eq_bind, Option.bind_some]
    cases found with
    | error res => exact h.safe res
    | ok p =>
        obtain ⟨hroot, hempty⟩ := hfound p (Ramfs.walkNames_ok_congr hget)
          (Bool.eq_false_of_not_eq_true hro)
        have hlive := h.listed.mem_live (htree p rfl)
        obtain ⟨d, hd, hmem⟩ := (htree p rfl).resolve_left hroot
        obtain ⟨hopened, -, hsized⟩ := h.entries p hlive
        have hbut := h.setDirent p (fun d => { d with toDelete := true }) s.handles
          (fun d => ⟨rfl, rfl, rfl, rfl, rfl⟩) (fun heq => absurd heq.symm hroot)
          (fun q _ => rfl) h.held
        have hself := Ramfs.setDirent_self (s := s.fs) p fun d => { d with toDelete := true }
        have hlive' : (s.fs.setDirent p fun d => { d with toDelete := true }).live =
          s.fs.live := rfl
        dsimp only
        rw [Ramfs.modify_of_mem hlive, Option.bind_eq_bind, Option.bind_some]
        generalize (s.fs.setDirent p fun d => { d with toDelete := true }) = fs
          at hbut hself hlive'
        rw [Ramfs.get_of_mem (hlive' ▸ hlive), Option.bind_eq_bind, Option.bind_some, hself]
        split
        · rename_i hopen
          refine (hbut.valid ⟨?_, ?_, ?_⟩).safe 0
          · rwa [hself]
          · rw [hself]
            exact fun _ => hopen
          · rwa [hself]
        · rename_i hclosed
          have hzero : (s.fs.dirents p).openCount = 0 := Nat.eq_zero_of_not_pos hclosed
          exact hbut.freeDirent (hlive' ▸ hd) hmem (hself ▸ hempty hzero)
            (List.count_eq_zero.mp (hopened ▸ hzero))

/-! ### Linking entries -/

/-- An entry that is in no list is put into one, and what it loses by that was not
open. -/
theorem linked_valid (hlisted : s.fs.Listed kids) (hentries : ∀ q ∈ s.fs.live, s.EntryOk q)
    (hroot : (s.fs.dirents s.fs.root).toDelete = false) {d : Nat} (hp : p ∈ s.fs.live)
    (hd : d ∈ s.fs.live) (hne : d ≠ p) (hdir : (s.fs.dirents d).type = .dir)
    (hpRoot : p ≠ s.fs.root) (hout : ∀ d ∈ s.fs.live, p ∉ kids d)
    (hheld : ∀ q ∈ s.handles, q ≠ p → s.fs.InTree kids q ∧ q ∉ kids p) :
    Valid ⟨s.fs.linked d p, s.handles⟩
      (Function.update (Function.update kids p []) d (p :: kids d)) where
  listed := hlisted.linked hd hp hne hdir hpRoot hout
  entries q hq := by
    obtain ⟨hopened, hhidden, hsized⟩ := hentries q hq
    exact ⟨hopened, hhidden, hsized⟩
  root := hroot
  held q hq := by
    by_cases hqp : q = p
    · exact .inr ⟨d, hd, by simp [hqp]⟩
    · obtain ⟨htree, hlost⟩ := hheld q hq hqp
      refine htree.imp_right ?_
      rintro ⟨d', hd', hmem⟩
      refine ⟨d', hd', ?_⟩
      by_cases hd'd : d' = d
      · subst hd'd
        simp [hmem]
      · have hd'p : d' ≠ p := fun heq => hlost (heq ▸ hmem)
        rwa [Function.update_of_ne hd'd, Function.update_of_ne hd'p]

theorem fitsNames_dirname (h : (dirnameOf path).length < 256) :
    Ramfs.FitsNames (dirnameOf path) :=
  Ramfs.fitsNames_of_length h

/-- A new path fits the buffers for its directory and its name. -/
def FitsParts (path : List Char) : Prop :=
  (dirnameOf path).length < 256 ∧ (filenameOf path).length < 256

theorem Valid.insertDirent (h : s.Valid kids) (hnew : new ∉ s.fs.live)
    (name : List Char) (type : DirentType) (device : Nat) :
    Valid ⟨s.fs.insertDirent new (newDirent name type device), s.handles⟩
      (Function.update kids new []) := by
  have hne : ∀ p ∈ s.fs.live, p ≠ new := fun p hp heq => hnew (heq ▸ hp)
  have hold : ∀ p ∈ s.fs.live, (s.fs.insertDirent new (newDirent name type device)).dirents p =
      s.fs.dirents p := fun p hp => Function.update_of_ne (hne p hp) _ _
  have hclosed : new ∉ s.handles := fun hmem => hnew (h.listed.mem_live (h.held new hmem))
  refine ⟨h.listed.insertDirent hnew rfl, ?_, ?_, ?_⟩
  · intro p hp
    rcases Finset.mem_insert.mp hp with rfl | hp
    · refine ⟨?_, ?_, ?_⟩
      · simp [Ramfs.insertDirent, newDirent, List.count_eq_zero_of_not_mem hclosed]
      · simp [Ramfs.insertDirent, newDirent]
      · simp [Ramfs.insertDirent, newDirent, ramfsBlockCount, ramfsBlockSize]
    · obtain ⟨hopened, hhidden, hsized⟩ := h.entries p hp
      exact ⟨by rwa [hold p hp], by rwa [hold p hp], by rwa [hold p hp]⟩
  · show ((s.fs.insertDirent new (newDirent name type device)).dirents s.fs.root).toDelete = false
    rw [hold _ h.listed.root]
    exact h.root
  · intro p hp
    refine (h.held p hp).imp_right ?_
    rintro ⟨d, hd, hmem⟩
    refine ⟨d, Finset.mem_insert_of_mem hd, ?_⟩
    rwa [Function.update_of_ne (hne d hd)]

/-- A path can be created: it fits its buffers, as far as they are reached. -/
def CanCreate (s : RamfsFiles) (path : List Char) : Prop :=
  Ramfs.FitsNames path ∧
    (s.fs.readOnly = false → (∀ p, s.fs.getDirent path ≠ some (.ok p)) → FitsParts path)

theorem Valid.create (h : s.Valid kids) (hnew : new ∉ s.fs.live)
    (hfits : s.CanCreate path) (type : DirentType) (device : Nat) :
    ∃ res fs kids, s.fs.create new path type device = some (res, fs) ∧
      Valid ⟨fs, s.handles⟩ kids := by
  rw [Ramfs.create]
  by_cases hro : s.fs.readOnly = true
  · exact ⟨_, _, kids, if_pos hro, h⟩
  · rw [if_neg hro]
    obtain ⟨found, hget, -⟩ := h.listed.getDirent hfits.1
    rw [hget, Option.bind_eq_bind, Option.bind_some]
    cases found with
    | ok p => exact ⟨_, _, kids, rfl, h⟩
    | error res =>
        have hparts := hfits.2 (Bool.eq_false_of_not_eq_true hro) (by simp [hget])
        dsimp only
        rw [if_neg (by rw [FitsParts] at hparts; omega)]
        have hinserted := h.insertDirent hnew (filenameOf path) type device
        have hout : ∀ d ∈ (s.fs.insertDirent new (newDirent (filenameOf path) type device)).live,
            new ∉ Function.update kids new [] d := fun d hd => h.listed.not_mem_new hnew hd
        have hroot : new ≠ s.fs.root := fun heq => hnew (heq ▸ h.listed.root)
        rcases hinserted.listed.addDirent (Bool.eq_false_of_not_eq_true hro)
          (fitsNames_dirname hparts.1) (Finset.mem_insert_self _ _) hroot hout with
          ⟨res, -, hadd, -⟩ | ⟨d, hd, hne, hdir, -, hadd⟩
        · exact ⟨_, _, _, hadd, hinserted⟩
        · refine ⟨_, _, _, hadd, linked_valid hinserted.listed hinserted.entries hinserted.root
            (Finset.mem_insert_self _ _) hd hne hdir hroot hout ?_⟩
          intro q hq hqn
          exact ⟨hinserted.held q hq, by simp⟩

theorem Valid.detach (h : s.Valid kids) {d : Nat} (hd : d ∈ s.fs.live) (hp : p ∈ kids d)
    (newPath : List Char) :
    ∃ fs, s.fs.detach p newPath = some fs ∧ fs.live = s.fs.live ∧ fs.root = s.fs.root ∧
      fs.readOnly = s.fs.readOnly ∧ fs.Listed (fun q => (kids q).erase p) ∧
      (∀ q ∈ s.fs.live, EntryOk ⟨fs, s.handles⟩ q) ∧
      (fs.dirents s.fs.root).toDelete = false := by
  obtain ⟨l, r, hkids⟩ := List.append_of_mem hp
  have hlive := (h.listed.entry d hd p hp).1
  have hdetach : s.fs.detach p newPath = some ((s.fs.unlinked d p l r).setDirent p
      fun d => { d with name := filenameOf newPath }) := by
    rw [Ramfs.detach, h.listed.unlink hd hkids]
    exact Ramfs.modify_of_mem (s := s.fs.unlinked d p l r) hlive _
  have hsame : ∀ q, let dirent := ((s.fs.unlinked d p l r).setDirent p
      fun d => { d with name := filenameOf newPath }).dirents q
      dirent.openCount = (s.fs.dirents q).openCount ∧
        dirent.toDelete = (s.fs.dirents q).toDelete ∧
        dirent.fileSize = (s.fs.dirents q).fileSize ∧
        dirent.blocks = (s.fs.dirents q).blocks := by
    intro q
    by_cases hq : q = p
    · simp [hq, Ramfs.setDirent_self, Ramfs.unlinked]
    · simp [Ramfs.setDirent_ne hq, Ramfs.unlinked]
  refine ⟨_, hdetach, rfl, rfl, rfl, ?_, ?_, ?_⟩
  · refine Ramfs.SameLinks.listed ?_ (h.listed.unlinked hd hkids)
    exact Ramfs.sameLinks_setDirent _ p fun d => ⟨rfl, rfl, rfl, rfl, rfl⟩
  · intro q hq
    obtain ⟨hopened, hhidden, hsized⟩ := h.entries q hq
    obtain ⟨hcount, hdelete, hsize, hblocks⟩ := hsame q
    exact ⟨hcount.trans hopened, by rwa [hdelete, hcount], by rwa [hsize, hblocks]⟩
  · exact (hsame _).2.1.trans h.root

/-- An entry can be renamed: it is not the root, nothing in it is open, and if it is
open itself it does not lead to its new directory. -/
structure CanRename (s : RamfsFiles) (p : Nat) (newPath : List Char) : Prop where
  fits : FitsParts newPath
  notRoot : p ≠ s.fs.root
  closed : ∀ q ∈ s.handles, (s.fs.dirents q).parent ≠ some p
  found : p ∈ s.handles → ∃ fs d, s.fs.detach p newPath = some fs ∧
    fs.getDirent (dirnameOf newPath) = some (.ok d) ∧ (fs.dirents d).type = .dir

theorem Valid.rename (h : s.Valid kids) {oldPath newPath : List Char}
    (hfits : Ramfs.FitsNames oldPath)
    (hfound : ∀ p, s.fs.lookupPath oldPath = some (.ok p) → s.fs.readOnly = false →
      s.CanRename p newPath) : Safe (s.withFs (s.fs.rename oldPath newPath)) := by
  rw [Ramfs.rename]
  by_cases hro : s.fs.readOnly = true
  · rw [if_pos hro]
    exact h.safe _
  · rw [if_neg hro]
    have hrw := Bool.eq_false_of_not_eq_true hro
    obtain ⟨found, hget, htree⟩ := h.listed.getDirent hfits
    rw [hget, Option.bind_eq_bind, Option.bind_some]
    cases found with
    | error res => exact h.safe res
    | ok p =>
        obtain ⟨hparts, hroot, hclosed, hdirname⟩ := hfound p (Ramfs.walkNames_ok_congr hget) hrw
        have hlive := h.listed.mem_live (htree p rfl)
        obtain ⟨d, hd, hmem⟩ := (htree p rfl).resolve_left hroot
        obtain ⟨fs, hdetach, hsameLive, hsameRoot, hsameRo, hlisted, hentries, hkept⟩ :=
          h.detach hd hmem newPath
        have hout : ∀ d ∈ fs.live, p ∉ (kids d).erase p := fun d hd =>
          h.listed.not_mem_erase (hsameLive ▸ hd)
        have hheld : ∀ q ∈ s.handles, q ≠ p → fs.InTree (fun q => (kids q).erase p) q := by
          intro q hq hqp
          rcases h.held q hq with heq | ⟨d', hd', hmem'⟩
          · exact .inl (heq.trans hsameRoot.symm)
          · exact .inr ⟨d', hsameLive ▸ hd', (List.mem_erase_of_ne hqp).mpr hmem'⟩
        dsimp only
        rw [if_neg (by rw [FitsParts] at hparts; omega), hdetach, Option.bind_eq_bind,
          Option.bind_some]
        rcases hlisted.addDirent (hsameRo.trans hrw) (fitsNames_dirname hparts.1)
          (hsameLive ▸ hlive) (hsameRoot ▸ hroot) hout with
          ⟨res, -, hadd, hlost⟩ | ⟨d', hd', hne, hdir, -, hadd⟩
        · rw [hadd]
          refine ⟨res, ⟨fs, s.handles⟩, _, rfl, hlisted, ?_, ?_, ?_⟩
          · exact fun q hq => hentries q (hsameLive ▸ hq)
          · exact hsameRoot ▸ hkept
          · intro q hq
            apply hheld q hq
            rintro rfl
            obtain ⟨fs', d', hdetach', hfound'⟩ := hdirname hq
            obtain rfl := Option.some.inj (hdetach.symm.trans hdetach')
            exact hlost ⟨d', hfound'⟩
        · rw [hadd]
          refine ⟨0, _, _, rfl, linked_valid (s := ⟨fs, s.handles⟩) hlisted ?_ ?_
            (hsameLive ▸ hlive) hd' hne hdir (hsameRoot ▸ hroot) hout ?_⟩
          · exact fun q hq => hentries q (hsameLive ▸ hq)
          · exact hsameRoot ▸ hkept
          · intro q hq hqp
            refine ⟨hheld q hq hqp, fun hlost => hclosed q hq ?_⟩
            exact (h.listed.entry p hlive q (List.mem_of_mem_erase hlost)).2.2

/-! ### Calls -/

theorem Valid.openStat (h : s.Valid kids) {created : List Char}
    (hnew : new ∉ s.fs.live) (hpath : Ramfs.FitsNames path) (flags : OpenFlags)
    (hcreated : flags.creat = true → (∀ p, s.fs.lookupPath path ≠ some (.ok p)) →
      s.CanCreate created) :
    ∃ res type fs kids, s.openStat path created flags new = some (res, type, fs) ∧
      Valid ⟨fs, s.handles⟩ kids := by
  obtain ⟨found, hget, htree⟩ := h.listed.lookupPath hpath
  rw [RamfsFiles.openStat, hget, Option.bind_eq_bind, Option.bind_some]
  cases found with
  | ok p =>
      dsimp only
      rw [Ramfs.get_of_mem (h.listed.mem_live (htree p rfl))]
      exact ⟨_, _, _, kids, rfl, h⟩
  | error res =>
      dsimp only
      split
      · rename_i hcreat
        obtain ⟨res, fs, kids', hcreate, hvalid⟩ :=
          h.create hnew (hcreated hcreat (by simp [hget])) .file 0
        rw [Ramfs.createFile, hcreate]
        exact ⟨res, .unknown, fs, kids', rfl, hvalid⟩
      · exact ⟨res, .unknown, s.fs, kids, rfl, h⟩

theorem Valid.openHandle {fs : Ramfs} (h : Valid ⟨fs, s.handles⟩ kids)
    (hpath : Ramfs.FitsNames path) (truncates : Bool) : Safe (s.openHandle fs path truncates) := by
  obtain ⟨found, hget, htree⟩ := h.listed.lookupPath hpath
  rw [RamfsFiles.openHandle, hget, Option.bind_eq_bind, Option.bind_some]
  cases found with
  | error res => exact h.safe res
  | ok p =>
      obtain ⟨opened, hopen, hvalid⟩ := h.openDirent (htree p rfl)
      have hlive : p ∈ opened.live := hvalid.listed.mem_live (hvalid.held p (by simp))
      dsimp only
      rw [hopen, Option.bind_eq_bind, Option.bind_some]
      cases truncates with
      | false => exact hvalid.safe 0
      | true =>
          obtain ⟨truncated, htruncate, hvalid⟩ := hvalid.truncate hlive 0
          rw [if_pos rfl, htruncate]
          exact hvalid.safe 0

theorem Valid.fdOpen (h : s.Valid kids) {created : List Char}
    (hnew : new ∉ s.fs.live) (hpath : Ramfs.FitsNames path) (flags : OpenFlags)
    (hcreated : flags.creat = true → (∀ p, s.fs.lookupPath path ≠ some (.ok p)) →
      s.CanCreate created) (full : Option Int) :
    Safe (s.fdOpen path created flags full new) := by
  rw [RamfsFiles.fdOpen]
  split
  · exact h.safe _
  · obtain ⟨res, type, fs, kids', hstat, hvalid⟩ := h.openStat hnew hpath flags hcreated
    rw [hstat, Option.bind_eq_bind, Option.bind_some]
    dsimp only
    split
    · exact hvalid.safe _
    · split
      · exact hvalid.safe _
      · cases full with
        | some res => exact hvalid.safe res
        | none => exact hvalid.openHandle hpath _

theorem Valid.fdClose (h : s.Valid kids) (i : Nat)
    (hlast : ∀ p, s.handles[i]? = some p → (s.fs.dirents p).toDelete = true →
      (s.fs.dirents p).openCount = 1 → (s.fs.dirents p).child = none) :
    Safe (s.fdClose i) := by
  rw [RamfsFiles.fdClose]
  cases hi : s.handles[i]? with
  | none => exact h.safe _
  | some p =>
      obtain ⟨hlt, hget⟩ := List.getElem?_eq_some_iff.mp hi
      have hsplit : s.handles = s.handles.take i ++ p :: s.handles.drop (i + 1) := by
        rw [← hget, List.getElem_cons_drop, List.take_append_drop]
      have hclose := h.closeDirent hsplit (hlast p hi)
      rw [← List.eraseIdx_eq_take_drop_succ] at hclose
      obtain ⟨res, s', kids', hres, hvalid⟩ := hclose
      refine ⟨res, s', kids', ?_, hvalid⟩
      obtain ⟨⟨res', fs⟩, hfs, heq⟩ := Option.map_eq_some_iff.mp hres
      obtain ⟨rfl, rfl⟩ := Prod.mk.injEq .. ▸ heq
      simp [hfs]

theorem Valid.removeFile (h : s.Valid kids) (hfits : Ramfs.FitsNames path)
    (hfound : ∀ p, s.fs.lookupPath path = some (.ok p) → path ≠ [] → s.fs.readOnly = false →
      ((s.fs.dirents p).type = .dir → s.fs.readdir p 0 = some (.error 0)) →
      p ≠ s.fs.root ∧ ((s.fs.dirents p).openCount = 0 → (s.fs.dirents p).child = none)) :
    Safe (s.removeFile path) := by
  obtain ⟨found, hget, htree⟩ := h.listed.lookupPath hfits
  rw [RamfsFiles.removeFile, hget, Option.bind_eq_bind, Option.bind_some]
  cases found with
  | error res => exact h.safe res
  | ok p =>
      dsimp only
      split
      · exact h.safe _
      · rename_i hpath
        have hlive := h.listed.mem_live (htree p rfl)
        obtain ⟨first, hfirst⟩ := h.listed.readdir hlive 0
        simp only [Ramfs.get_of_mem hlive, hfirst, Option.bind_eq_bind, Option.bind_some]
        split
        · exact h.safe _
        · rename_i hempty
          apply h.delete hfits
          intro p' hp' hrw
          obtain rfl := Except.ok.inj (Option.some.inj (hget.symm.trans hp'))
          refine hfound p hget hpath hrw fun hdir => ?_
          rw [hfirst]
          exact congrArg some (not_not.mp fun hne => hempty ⟨hdir, hne⟩)

theorem Valid.renameFile (h : s.Valid kids) {oldPath newPath : List Char}
    (hold : Ramfs.FitsNames oldPath) (hnew : Ramfs.FitsNames newPath)
    (hfound : ∀ p q, s.fs.lookupPath oldPath = some (.ok p) →
      s.fs.lookupPath newPath = some (.ok q) → oldPath ≠ [] → s.fs.readOnly = false →
      s.CanRename p newPath) : Safe (s.renameFile oldPath newPath) := by
  obtain ⟨old, hgetOld, -⟩ := h.listed.lookupPath hold
  obtain ⟨new, hgetNew, -⟩ := h.listed.lookupPath hnew
  rw [RamfsFiles.renameFile, hgetOld, hgetNew]
  simp only [Option.bind_eq_bind, Option.bind_some]
  cases old with
  | error res => exact h.safe res
  | ok p =>
      cases new with
      | error res => exact h.safe res
      | ok q =>
          dsimp only
          split
          · exact h.safe _
          · rename_i hpath
            exact h.rename hold fun p' hp' hrw => hfound p' q hp' hgetNew hpath hrw

/-! ### Runs -/

/-- `kmalloc` gives memory that is not in use. -/
def Kmallocs (s : RamfsFiles) : RamfsOp → Prop
  | .createFile new _ | .createDirectory new _ | .mknod new _ _ _ | .fdOpen _ _ _ _ new =>
    new ∉ s.fs.live
  | _ => True

/-- Paths fit the buffers they are copied to, the root is not removed or renamed, an
entry is freed only when it has no entries, and a rename meets `CanRename`. -/
def KeepsEntries (s : RamfsFiles) : RamfsOp → Prop
  | .createFile _ path | .createDirectory _ path | .mknod _ path _ _ => s.CanCreate path
  | .fdOpen path created flags _ _ =>
    Ramfs.FitsNames path ∧ (flags.creat = true →
      (∀ p, s.fs.lookupPath path ≠ some (.ok p)) → s.CanCreate created)
  | .fdClose i =>
    ∀ p, s.handles[i]? = some p → (s.fs.dirents p).toDelete = true →
      (s.fs.dirents p).openCount = 1 → (s.fs.dirents p).child = none
  | .writeFile .. | .ftruncate .. => True
  | .truncateFile path _ => Ramfs.FitsNames path
  | .removeFile path =>
    Ramfs.FitsNames path ∧
      ∀ p, s.fs.lookupPath path = some (.ok p) → path ≠ [] → s.fs.readOnly = false →
        ((s.fs.dirents p).type = .dir → s.fs.readdir p 0 = some (.error 0)) →
        p ≠ s.fs.root ∧ ((s.fs.dirents p).openCount = 0 → (s.fs.dirents p).child = none)
  | .renameFile oldPath newPath =>
    Ramfs.FitsNames oldPath ∧ Ramfs.FitsNames newPath ∧
      ∀ p q, s.fs.lookupPath oldPath = some (.ok p) → s.fs.lookupPath newPath = some (.ok q) →
        oldPath ≠ [] → s.fs.readOnly = false → s.CanRename p newPath

theorem Safe.of_fs {result : Option (Int × Ramfs)}
    (h : ∃ res fs kids, result = some (res, fs) ∧ Valid ⟨fs, s.handles⟩ kids) :
    Safe (s.withFs result) := by
  obtain ⟨res, fs, kids, rfl, hvalid⟩ := h
  exact ⟨res, ⟨fs, s.handles⟩, kids, rfl, hvalid⟩

theorem Valid.open_live (h : s.Valid kids) {i : Nat} (hi : s.handles[i]? = some p) :
    p ∈ s.fs.live :=
  h.listed.mem_live (h.held p (List.mem_of_getElem? hi))

/-- A call that meets the condition has a result, and the invariant holds again. -/
theorem Valid.call (h : s.Valid kids) {op : RamfsOp} (hnew : s.Kmallocs op)
    (hop : s.KeepsEntries op) : Safe (s.call op) := by
  cases op with
  | createFile new path => exact .of_fs (h.create hnew hop .file 0)
  | createDirectory new path => exact .of_fs (h.create hnew hop .dir 0)
  | mknod new path type device =>
      rw [RamfsFiles.call, Ramfs.mknod]
      split
      · exact h.safe _
      · split
        · exact h.safe _
        · exact .of_fs (h.create hnew hop type device)
  | fdOpen path created flags full new =>
      exact h.fdOpen hnew hop.1 flags hop.2 full
  | fdClose i => exact h.fdClose i hop
  | writeFile i device buffer offset =>
      rw [RamfsFiles.call, RamfsFiles.writeFile]
      cases hi : s.handles[i]? with
      | none => exact h.safe _
      | some p =>
          have hp := h.open_live hi
          simp only [Ramfs.get_of_mem hp, Option.bind_eq_bind, Option.bind_some]
          split
          · exact h.safe _
          · exact h.write hp device buffer offset
  | ftruncate i newSize =>
      rw [RamfsFiles.call, RamfsFiles.ftruncate]
      cases hi : s.handles[i]? with
      | none => exact h.safe _
      | some p =>
          have hp := h.open_live hi
          obtain ⟨fs, htruncate, hvalid⟩ := h.truncate hp newSize
          simp only [Ramfs.get_of_mem hp, Option.bind_eq_bind, Option.bind_some]
          split
          · exact h.safe _
          · exact .of_fs ⟨0, fs, kids, htruncate, hvalid⟩
  | truncateFile path newSize =>
      obtain ⟨found, hget, htree⟩ := h.listed.lookupPath hop
      rw [RamfsFiles.call, RamfsFiles.truncateFile, hget, Option.bind_eq_bind, Option.bind_some]
      cases found with
      | error res => exact h.safe res
      | ok p =>
          obtain ⟨fs, htruncate, hvalid⟩ := h.truncate (h.listed.mem_live (htree p rfl)) newSize
          exact .of_fs ⟨0, fs, kids, htruncate, hvalid⟩
  | removeFile path => exact h.removeFile hop.1 hop.2
  | renameFile oldPath newPath => exact h.renameFile hop.1 hop.2.1 hop.2.2

theorem mount_valid (root : Nat) (readOnly : Bool) :
    Valid ⟨ramfsMount root readOnly, []⟩ fun _ => [] := by
  refine ⟨⟨Finset.mem_singleton_self root, rfl, fun _ _ => rfl, by simp, by simp⟩, ?_, rfl, by simp⟩
  intro p _
  exact ⟨rfl, (nomatch ·), by simp [ramfsMount, newDirent, ramfsBlockCount, ramfsBlockSize]⟩

end RamfsFiles

/-- From mounting on, as long as the calls meet the condition, each call has a result
and leaves every linked or open entry with a live directory. -/
theorem ramfs_entries_live {root : Nat} {readOnly : Bool} {ops : List RamfsOp}
    (hnew : Along RamfsFiles.step RamfsFiles.Kmallocs ⟨ramfsMount root readOnly, []⟩ ops)
    (hops : Along RamfsFiles.step RamfsFiles.KeepsEntries ⟨ramfsMount root readOnly, []⟩ ops) :
    Along RamfsFiles.step (fun s op => (s.call op).isSome ∧ (s.step op).Sound)
      ⟨ramfsMount root readOnly, []⟩ ops := by
  apply Along.of_invariant (fun s => ∃ kids, s.Valid kids) ?_ ⟨_, RamfsFiles.mount_valid _ _⟩
    (hnew.and hops)
  rintro s op ⟨kids, hvalid⟩ ⟨hnew, hop⟩
  obtain ⟨res, s', kids', hcall, hvalid'⟩ := hvalid.call hnew hop
  have hstep : s.step op = s' := by rw [RamfsFiles.step, hcall]; rfl
  rw [hcall, hstep]
  exact ⟨⟨rfl, hvalid'.sound⟩, kids', hvalid'⟩

/-- Open for reading, with no other flag. -/
def readOnlyFlags : OpenFlags := ⟨false, false, false, false, false, false⟩

/-- A file in a directory is made, opened, removed and closed, and the directory
removed after that. -/
def removeInOrder : List RamfsOp :=
  [.createDirectory 1 "/d".toList, .createFile 2 "/d/f".toList,
    .fdOpen "/d/f".toList [] readOnlyFlags none 3, .removeFile "/d/f".toList, .fdClose 0,
    .removeFile "/d".toList]

theorem ramfs_entries_live_in_order :
    Along RamfsFiles.step (fun s op => (s.call op).isSome ∧ (s.step op).Sound)
      ⟨ramfsMount 0 false, []⟩ removeInOrder := by
  apply ramfs_entries_live
  · refine ⟨?_, ?_, ?_, trivial, trivial, trivial, trivial⟩
    · exact show 1 ∉ ({0} : Finset Nat) by decide
    · exact show 2 ∉ ({1, 0} : Finset Nat) by decide
    · exact show 3 ∉ ({2, 1, 0} : Finset Nat) by decide
  · have hdir : Ramfs.FitsNames "/d".toList ∧ RamfsFiles.FitsParts "/d".toList := by
      unfold Ramfs.FitsNames RamfsFiles.FitsParts
      decide
    have hfile : Ramfs.FitsNames "/d/f".toList ∧ RamfsFiles.FitsParts "/d/f".toList := by
      unfold Ramfs.FitsNames RamfsFiles.FitsParts
      decide
    refine ⟨⟨hdir.1, fun _ _ => hdir.2⟩, ⟨hfile.1, fun _ _ => hfile.2⟩,
      ⟨hfile.1, (nomatch ·)⟩, ⟨hfile.1, ?_⟩, ?_, ⟨hdir.1, ?_⟩, trivial⟩
    · intro p hp _ _ _
      obtain rfl : 2 = p := Except.ok.inj (Option.some.inj hp)
      exact ⟨by decide, fun hclosed => nomatch hclosed⟩
    · intro p hp _ _
      obtain rfl : 2 = p := Option.some.inj hp
      rfl
    · intro p hp _ _ _
      obtain rfl : 1 = p := Except.ok.inj (Option.some.inj hp)
      exact ⟨by decide, fun _ => rfl⟩

/-- A directory is removed while a file deleted from it is still open. -/
def removeParent : List RamfsOp :=
  [.createDirectory 1 "/d".toList, .createFile 2 "/d/f".toList,
    .fdOpen "/d/f".toList [] readOnlyFlags none 3, .removeFile "/d/f".toList,
    .removeFile "/d".toList]

/-- The file is left with a directory that is freed, and closing it follows the
pointer. -/
theorem ramfs_parent_freed :
    Along RamfsFiles.step RamfsFiles.Kmallocs ⟨ramfsMount 0 false, []⟩ removeParent ∧
      ¬ (removeParent.foldl RamfsFiles.step ⟨ramfsMount 0 false, []⟩).Sound ∧
      (removeParent.foldl RamfsFiles.step ⟨ramfsMount 0 false, []⟩).call (.fdClose 0) = none := by
  refine ⟨⟨?_, ?_, ?_, trivial, trivial, trivial⟩, ?_, rfl⟩
  · exact show 1 ∉ ({0} : Finset Nat) by decide
  · exact show 2 ∉ ({1, 0} : Finset Nat) by decide
  · exact show 3 ∉ ({2, 1, 0} : Finset Nat) by decide
  · generalize hfinal : removeParent.foldl RamfsFiles.step ⟨ramfsMount 0 false, []⟩ = final
    have hopen : final.handles = [2] := by rw [← hfinal]; rfl
    have hroot : final.fs.root = 0 := by rw [← hfinal]; rfl
    have hlive : final.fs.live = {0, 2} := by rw [← hfinal]; decide
    have hparent : (final.fs.dirents 2).parent = some 1 := by rw [← hfinal]; rfl
    rintro ⟨kids, -, hentries⟩
    obtain ⟨-, heq | ⟨d, hd, hd', -⟩⟩ := hentries 2 (.inl (by simp [hopen]))
    · rw [hroot] at heq
      cases heq
    · rw [hparent] at hd'
      obtain rfl := Option.some.inj hd'
      simp [hlive] at hd

end GlitchedOS
