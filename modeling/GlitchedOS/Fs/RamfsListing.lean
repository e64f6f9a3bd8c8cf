/-
What a directory of a ramfs lists, and what is found in it.  The search for a name goes
through all entries, and the listing leaves out those that are deleted but still open.  The
two agree as long as no open entry is deleted.
-/
import Mathlib.Data.Fintype.EquivFin
import GlitchedOS.Fs.RamfsTree

namespace GlitchedOS

inductive RamfsEntryOp where
  | createFile (new : Nat) (path : List Char)
  | createDirectory (new : Nat) (path : List Char)
  | mknod (new : Nat) (path : List Char) (type : DirentType) (device : Nat)
  | openDirent (p : Nat)
  | closeDirent (p : Nat)
  | delete (path : List Char)

namespace Ramfs

section Calls

variable (s : Ramfs)

/-- `ramfs_lookup` -/
def lookup (name : List Char) (parent : Nat) : Option (Except Int Nat) := do
  let dirent ← s.get parent
  if dirent.type ≠ .dir then some (.error eNotdir)
  else match ← s.findChild name s.live.card dirent.child with
  | none => some (.error eNoent)
  | some p => some (.ok p)

/-- `ramfs_open`, with a count of 64 bits. -/
def openCounted (p : Nat) : Option Ramfs :=
  s.modify p fun d => { d with openCount := (d.openCount + 1) % 2 ^ 64 }

/-- `ramfs_close`, with a count of 64 bits. -/
def closeCounted (p : Nat) : Option (Int × Ramfs) := do
  let s ← s.modify p fun d => { d with openCount := (d.openCount + (2 ^ 64 - 1)) % 2 ^ 64 }
  let dirent ← s.get p
  if dirent.openCount = 0 ∧ dirent.toDelete then s.freeDirent p else some (0, s)

def entryCall : RamfsEntryOp → Option (Int × Ramfs)
  | .createFile new path => s.createFile new path
  | .createDirectory new path => s.createDirectory new path
  | .mknod new path type device => s.mknod new path type device
  | .openDirent p => (s.openCounted p).map fun s => (0, s)
  | .closeDirent p => s.closeCounted p
  | .delete path => s.delete path

/-- The state after a call; without a result it stays. -/
def entryStep (op : RamfsEntryOp) : Ramfs :=
  ((s.entryCall op).map Prod.snd).getD s

/-- `kmalloc` gives memory that is not in use. -/
def GivesNew : RamfsEntryOp → Prop
  | .createFile new _ => new ∉ s.live
  | .createDirectory new _ => new ∉ s.live
  | .mknod new _ _ _ => new ∉ s.live
  | _ => True

def Returns (op : RamfsEntryOp) : Prop :=
  s.GivesNew op ∧ (s.entryCall op).isSome

/-- A name is found in a directory if and only if the directory lists it. -/
def ListsWhatItFinds : Prop :=
  ∀ d ∈ s.live, (s.dirents d).type = .dir → ∀ name,
    (∃ p, s.lookup name d = some (.ok p)) ↔
      ∃ index < s.live.card, ∃ type, s.readdir d index = some (.ok (name, type))

/-- A path leads nowhere, and can be created. -/
def Gone (path : List Char) : Prop :=
  (∃ res, s.getDirent path = some (.error res)) ∧
    ∀ new ∉ s.live, ∀ type device, ∃ s', s.create new path type device = some (0, s')

/-- After a call directories list what is found in them, and what it deleted is gone. -/
def Agrees (op : RamfsEntryOp) : Prop :=
  (s.entryStep op).ListsWhatItFinds ∧
    ∀ path, op = .delete path → ∀ s', s.delete path = some (0, s') → s'.Gone path

/-- What `ramfs_delete` finds is not open, and its path fits the buffers of a new entry. -/
def DeletesClosed : RamfsEntryOp → Prop
  | .delete path => s.readOnly = false → ∀ p, s.getDirent path = some (.ok p) →
      (s.dirents p).openCount = 0 ∧ RamfsFiles.FitsParts path
  | _ => True

end Calls

variable {s s' : Ramfs} {kids : Nat → List Nat} {d p : Nat} {path : List Char}

theorem nthVisible_eq {start : Option Nat} {l : List Nat} {n : Nat} (index : Nat)
    (h : Chain (fun p => (s.dirents p).next) start l) (hlive : ∀ p ∈ l, p ∈ s.live)
    (hn : l.length ≤ n) : s.nthVisible n start index =
      some ((l.filter fun p => !(s.dirents p).toDelete)[index]?.map s.dirents) := by
  induction l generalizing start n index with
  | nil =>
      obtain rfl : start = none := h
      cases n <;> rfl
  | cons p rest ih =>
      obtain ⟨rfl, hrest⟩ := h
      cases n with
      | zero => exact absurd hn (Nat.not_succ_le_zero _)
      | succ n =>
          have htail := fun index => ih index hrest
            (fun q hq => hlive q (List.mem_cons_of_mem p hq)) (Nat.le_of_succ_le_succ hn)
          rw [nthVisible, get_of_mem (hlive p List.mem_cons_self), Option.bind_eq_bind,
            Option.bind_some]
          cases hhidden : (s.dirents p).toDelete with
          | true =>
              rw [if_pos rfl, htail index, List.filter_cons_of_neg (by simp [hhidden])]
          | false =>
              rw [if_neg Bool.false_ne_true, List.filter_cons_of_pos (by simp [hhidden])]
              cases index with
              | zero => rfl
              | succ index => exact htail index

/-- The search finds all entries. -/
theorem Listed.lookup_iff (h : s.Listed kids) (hd : d ∈ s.live) (hdir : (s.dirents d).type = .dir)
    (name : List Char) :
    (∃ p, s.lookup name d = some (.ok p)) ↔ ∃ q ∈ kids d, s.nameOf q = name := by
  rw [lookup, get_of_mem hd, Option.bind_eq_bind, Option.bind_some, if_neg (not_not.mpr hdir),
    h.findChild hd, Option.bind_eq_bind, Option.bind_some]
  cases hfound : (kids d).find? fun p => decide (s.nameOf p = name) with
  | none =>
      constructor
      · rintro ⟨p, hp⟩
        cases hp
      · rintro ⟨q, hq, hname⟩
        exact absurd (decide_eq_true hname) (List.find?_eq_none.mp hfound q hq)
  | some p =>
      constructor
      · intro _
        exact ⟨p, List.mem_of_find?_eq_some hfound, of_decide_eq_true (List.find?_some hfound :)⟩
      · intro _
        exact ⟨p, rfl⟩

/-- The listing leaves out what is deleted. -/
theorem Listed.readdir_iff (h : s.Listed kids) (hd : d ∈ s.live)
    (hdir : (s.dirents d).type = .dir) (name : List Char) :
    (∃ index < s.live.card, ∃ type, s.readdir d index = some (.ok (name, type))) ↔
      ∃ q ∈ kids d, (s.dirents q).toDelete = false ∧ s.nameOf q = name := by
  have hvisible := fun index => nthVisible_eq index (h.list d hd).chain
    (fun q hq => (h.entry d hd q hq).1) (h.length_le hd)
  constructor
  · rintro ⟨index, -, type, hread⟩
    rw [Ramfs.readdir, get_of_mem hd, Option.bind_eq_bind, Option.bind_some,
      if_neg (not_not.mpr hdir), hvisible, Option.bind_eq_bind, Option.bind_some] at hread
    cases hat : ((kids d).filter fun p => !(s.dirents p).toDelete)[index]? with
    | none =>
        rw [hat] at hread
        cases hread
    | some q =>
        rw [hat] at hread
        obtain ⟨hq, hshown⟩ := List.mem_filter.mp (List.mem_of_getElem? hat)
        cases hread
        exact ⟨q, hq, by simpa using hshown, rfl⟩
  · rintro ⟨q, hq, hshown, rfl⟩
    have hmem : q ∈ (kids d).filter fun p => !(s.dirents p).toDelete :=
      List.mem_filter.mpr ⟨hq, by simp [hshown]⟩
    obtain ⟨index, hindex, hat⟩ := List.getElem_of_mem hmem
    have hlt := hindex.trans_le ((List.length_filter_le _ _).trans (h.length_le hd))
    refine ⟨index, hlt, (s.dirents q).type, ?_⟩
    rw [Ramfs.readdir, get_of_mem hd, Option.bind_eq_bind, Option.bind_some,
      if_neg (not_not.mpr hdir), hvisible, Option.bind_eq_bind, Option.bind_some,
      List.getElem?_eq_getElem hindex, hat]
    rfl

/-- No entry is deleted and still there, and the root is in no directory. -/
structure Shown (s : Ramfs) (kids : Nat → List Nat) : Prop extends Tree s kids where
  shown : ∀ p ∈ s.live, (s.dirents p).toDelete = false
  top : (s.dirents s.root).parent = none

theorem mount_shown (root : Nat) (readOnly : Bool) :
    (ramfsMount root readOnly).Shown fun _ => [] where
  toTree := mount_tree root readOnly
  shown _ _ := rfl
  top := rfl

theorem Shown.lists (h : s.Shown kids) : s.ListsWhatItFinds := by
  intro d hd hdir name
  rw [h.toListed.lookup_iff hd hdir, h.toListed.readdir_iff hd hdir]
  constructor
  · rintro ⟨q, hq, hname⟩
    exact ⟨q, hq, h.shown q (h.entry d hd q hq).1, hname⟩
  · rintro ⟨q, hq, -, hname⟩
    exact ⟨q, hq, hname⟩

variable {new device : Nat} {type : DirentType} {res : Int}

theorem Shown.create (h : s.Shown kids) (hnew : new ∉ s.live)
    (hcreate : s.create new path type device = some (res, s')) : ∃ kids', s'.Shown kids' := by
  by_cases hro : s.readOnly = true
  · rw [Ramfs.create, if_pos hro] at hcreate
    cases hcreate
    exact ⟨kids, h⟩
  have hwritable := Bool.eq_false_of_not_eq_true hro
  have hshown : ∀ p ∈ insert new s.live, ((s.insertDirent new
      (newDirent (filenameOf path) type device)).dirents p).toDelete = false := by
    intro p hp
    by_cases hpn : p = new
    · subst hpn
      exact congrArg RamfsDirent.toDelete (Function.update_self p _ s.dirents)
    · rw [Ramfs.insertDirent]
      dsimp only
      rw [Function.update_of_ne hpn]
      exact h.shown p ((Finset.mem_insert.mp hp).resolve_left hpn)
  have hroot : s.root ≠ new := fun heq => hnew (heq ▸ h.root)
  have htop : ((s.insertDirent new (newDirent (filenameOf path) type device)).dirents
      s.root).parent = none :=
    (congrArg RamfsDirent.parent (Function.update_of_ne hroot _ _)).trans h.top
  cases hget : s.getDirent path with
  | none =>
      rw [Ramfs.create, if_neg hro, hget] at hcreate
      cases hcreate
  | some found =>
      cases found with
      | ok p =>
          rw [Ramfs.create, if_neg hro, hget] at hcreate
          cases hcreate
          exact ⟨kids, h⟩
      | error e =>
          have hfits : RamfsFiles.FitsParts path := by
            by_contra hlong
            rw [Ramfs.create, if_neg hro, hget, Option.bind_eq_bind, Option.bind_some] at hcreate
            dsimp only at hcreate
            rw [if_pos (by rw [RamfsFiles.FitsParts] at hlong; omega)] at hcreate
            cases hcreate
          rcases h.toTree.create hwritable hnew hfits hget type device with
            ⟨e', -, hcreate', -⟩ | ⟨d, kids', -, hcreate', htree⟩
          · cases hcreate.symm.trans hcreate'
            exact ⟨kids, (h.toTree.insertNew hnew rfl).1, hshown, htop⟩
          · cases hcreate.symm.trans hcreate'
            exact ⟨kids', htree, hshown, (if_neg hroot).trans htop⟩

theorem Shown.setCount (h : s.Shown kids) (p : Nat) (f : Nat → Nat) :
    (s.setDirent p fun d => { d with openCount := f d.openCount }).Shown kids := by
  have hlinks := sameLinks_setDirent (f := fun d => { d with openCount := f d.openCount }) s p
    fun d => ⟨rfl, rfl, rfl, rfl, rfl⟩
  have hsame : ∀ q,
      ((s.setDirent p fun d => { d with openCount := f d.openCount }).dirents q).name =
        (s.dirents q).name ∧
      ((s.setDirent p fun d => { d with openCount := f d.openCount }).dirents q).toDelete =
        (s.dirents q).toDelete := by
    intro q
    by_cases hq : q = p
    · rw [hq, setDirent_self]
      exact ⟨rfl, rfl⟩
    · rw [setDirent_ne hq]
      exact ⟨rfl, rfl⟩
  refine ⟨hlinks.tree h.toTree fun q => (hsame q).1, fun q hq => ?_, ?_⟩
  · rw [(hsame q).2]
    exact h.shown q hq
  · exact (hlinks.links s.root).2.2.1.trans h.top

theorem Shown.openCounted (h : s.Shown kids) (hopen : s.openCounted p = some s') :
    s'.Shown kids := by
  rw [Ramfs.openCounted, modify] at hopen
  split at hopen
  · cases hopen
    exact h.setCount p fun n => (n + 1) % 2 ^ 64
  · cases hopen

theorem Shown.closeCounted (h : s.Shown kids) (hclose : s.closeCounted p = some (res, s')) :
    s'.Shown kids := by
  by_cases hp : p ∈ s.live
  · have hset := h.setCount p fun n => (n + (2 ^ 64 - 1)) % 2 ^ 64
    have hkept := hset.shown p hp
    rw [Ramfs.closeCounted, modify_of_mem hp, Option.bind_eq_bind, Option.bind_some,
      get_of_mem (by exact hp), Option.bind_eq_bind, Option.bind_some, if_neg] at hclose
    · cases hclose
      exact hset
    · rintro ⟨-, hdeleted⟩
      cases hkept.symm.trans hdeleted
  · rw [Ramfs.closeCounted, modify, if_neg hp] at hclose
    cases hclose

structure Deleted (s fs : Ramfs) (kids : Nat → List Nat) (p : Nat) : Prop where
  shown : fs.Shown (Function.update (fun q => (kids q).erase p) p [])
  live : fs.live = s.live.erase p
  root : fs.root = s.root
  readOnly : fs.readOnly = s.readOnly
  name : fs.nameOf = s.nameOf
  type : ∀ q, (fs.dirents q).type = (s.dirents q).type

/-- The mark that `ramfs_delete` sets leaves the tree alone. -/
theorem Tree.marked (h : s.Tree kids) (p : Nat) :
    (s.setDirent p fun d => { d with toDelete := true }).Tree kids ∧
      ∀ q, (s.setDirent p fun d => { d with toDelete := true }).nameOf q = s.nameOf q := by
  have hlinks := sameLinks_setDirent (f := fun d => { d with toDelete := true }) s p
    fun d => ⟨rfl, rfl, rfl, rfl, rfl⟩
  have hsame : ∀ q,
      (s.setDirent p fun d => { d with toDelete := true }).nameOf q = s.nameOf q := by
    intro q
    rw [nameOf]
    by_cases hq : q = p
    · rw [hq, setDirent_self]
      rfl
    · rw [setDirent_ne hq]
      rfl
  exact ⟨hlinks.tree h hsame, hsame⟩

theorem Listed.delete_eq (h : s.Listed kids) (hwritable : s.readOnly = false)
    (hpath : s.getDirent path = some (.ok p)) :
    s.delete path = if 0 < (s.dirents p).openCount then
        some (0, s.setDirent p fun d => { d with toDelete := true })
      else (s.setDirent p fun d => { d with toDelete := true }).freeDirent p := by
  have hp := h.mem_live (h.inTree_of_getDirent hpath)
  have hro : ¬ s.readOnly = true := by
    rw [hwritable]
    exact Bool.false_ne_true
  rw [Ramfs.delete, if_neg hro, hpath, Option.bind_eq_bind, Option.bind_some]
  dsimp only
  rw [modify_of_mem hp, Option.bind_eq_bind, Option.bind_some, get_of_mem (by exact hp),
    Option.bind_eq_bind, Option.bind_some, setDirent_self]

theorem Shown.delete (h : s.Shown kids) (hwritable : s.readOnly = false)
    (hpath : s.getDirent path = some (.ok p)) (hroot : p ≠ s.root)
    (hclosed : (s.dirents p).openCount = 0) :
    ∃ fs, s.delete path = some (0, fs) ∧ Deleted s fs kids p := by
  obtain ⟨d, hd, hmem⟩ := (h.toListed.inTree_of_getDirent hpath).resolve_left hroot
  obtain ⟨l, r, hkids⟩ := List.append_of_mem hmem
  have hzero : ¬ 0 < (s.dirents p).openCount := by
    rw [hclosed]
    exact Nat.lt_irrefl 0
  have hlinks := sameLinks_setDirent (f := fun d => { d with toDelete := true }) s p
    fun d => ⟨rfl, rfl, rfl, rfl, rfl⟩
  have hother := fun q (hq : q ≠ p) => setDirent_ne (s := s) hq fun d => { d with toDelete := true }
  obtain ⟨hmarked, hsame⟩ := h.toTree.marked p
  rw [h.toListed.delete_eq hwritable hpath, if_neg hzero]
  generalize (s.setDirent p fun d => { d with toDelete := true }) = marked at *
  rw [Ramfs.freeDirent, hmarked.toListed.unlink (hlinks.live ▸ hd) hkids, Option.bind_eq_bind,
    Option.bind_some]
  refine ⟨_, rfl, ?_⟩
  refine ⟨⟨?_, ?_, ?_⟩, ?_, hlinks.root, hlinks.readOnly, funext hsame, ?_⟩
  · exact (hmarked.unlinked hkids).erase (hlinks.root.symm ▸ hroot) (hmarked.not_mem_erase p)
  · intro q hq
    obtain ⟨hqp, hq⟩ := Finset.mem_erase.mp hq
    change (marked.dirents q).toDelete = false
    rw [hother q hqp]
    exact h.shown q (hlinks.live ▸ hq)
  · change (marked.dirents marked.root).parent = none
    rw [hlinks.root, (hlinks.links _).2.2.1]
    exact h.top
  · exact congrArg (Finset.erase · p) hlinks.live
  · exact fun q => (hlinks.links q).2.2.2.2

/-- The root is in no directory that it could be taken out of. -/
theorem unlink_of_no_parent (hparent : (s.dirents p).parent = none) : s.unlink p = none := by
  rw [Ramfs.unlink, Ramfs.get]
  split
  · rw [Option.bind_eq_bind, Option.bind_some, hparent]
    cases s.modifyAt (s.dirents p).previous fun d => { d with next := (s.dirents p).next } <;> rfl
  · rfl

variable {fs : Ramfs}

theorem Deleted.getDirent (hfs : Deleted s fs kids p) (h : s.Shown kids)
    (hpath : s.getDirent path = some (.ok p)) : ∃ res, fs.getDirent path = some (.error res) := by
  obtain ⟨found, hfound, -⟩ := hfs.shown.toListed.getDirent (fits_of_walkNames hpath)
  cases found with
  | error res => exact ⟨res, hfound⟩
  | ok q =>
      have hq := hfs.shown.toListed.mem_live (hfs.shown.toListed.inTree_of_getDirent hfound)
      have hafter := hfs.shown.toTree.getDirent_iff.mp hfound
      have hbefore : LabelPath kids s.nameOf s.root (pathNames path) q := by
        rw [hfs.root, hfs.name] at hafter
        refine hafter.mono (fun d => ?_) fun d c _ => rfl
        by_cases hdp : d = p
        · rw [hdp, Function.update_self]
          exact List.nil_subset _
        · rw [Function.update_of_ne hdp]
          exact List.erase_subset
      obtain rfl := hbefore.end_unique h.distinct (h.toTree.getDirent_iff.mp hpath)
      rw [hfs.live] at hq
      exact absurd rfl (Finset.ne_of_mem_erase hq)

theorem Deleted.dirname (hfs : Deleted s fs kids p) (h : s.Shown kids) (hroot : p ≠ s.root)
    (hpath : s.getDirent path = some (.ok p)) :
    ∃ d, fs.getDirent (dirnameOf path) = some (.ok d) ∧ (fs.dirents d).type = .dir := by
  have hleads := h.toTree.getDirent_iff.mp hpath
  have hnamed : filenameOf path ≠ [] := by
    intro hnil
    rw [pathNames_of_no_name hnil] at hleads
    exact hroot hleads
  rw [pathNames_eq hnamed] at hleads
  obtain ⟨d, hd, hmem, -⟩ := LabelPath.snoc_iff.mp hleads
  refine ⟨d, ?_, ?_⟩
  · rw [hfs.shown.toTree.getDirent_iff, hfs.root, hfs.name]
    apply hd.above h.toTree.rooted hmem
    intro a ha c hc hcp
    rw [Function.update_of_ne ha]
    exact ⟨(List.mem_erase_of_ne hcp).mpr hc, rfl⟩
  · rw [hfs.type]
    exact h.dir d (h.toTree.live_of_mem hmem) (List.ne_nil_of_mem hmem)

theorem Deleted.gone_iff (hfs : Deleted s fs kids p) (h : s.Shown kids)
    (hwritable : s.readOnly = false) (hroot : p ≠ s.root)
    (hpath : s.getDirent path = some (.ok p)) : fs.Gone path ↔ RamfsFiles.FitsParts path := by
  obtain ⟨res, hmissing⟩ := hfs.getDirent h hpath
  have hwritable' := hfs.readOnly.trans hwritable
  constructor
  · rintro ⟨-, hcreate⟩
    obtain ⟨new, hnew⟩ := Infinite.exists_notMem_finset fs.live
    obtain ⟨s', hcreate⟩ := hcreate new hnew .file 0
    by_contra hlong
    have hro : ¬ fs.readOnly = true := by
      rw [hwritable']
      exact Bool.false_ne_true
    rw [Ramfs.create, if_neg hro, hmissing, Option.bind_eq_bind, Option.bind_some] at hcreate
    dsimp only at hcreate
    rw [if_pos (by rw [RamfsFiles.FitsParts] at hlong; omega)] at hcreate
    cases hcreate
  · intro hfits
    refine ⟨⟨res, hmissing⟩, fun new hnew type device => ?_⟩
    rcases hfs.shown.toTree.create hwritable' hnew hfits hmissing type device with
      ⟨e, -, -, hlost⟩ | ⟨d, kids', -, hcreate, -⟩
    · exact absurd (hfs.dirname h hroot hpath) hlost
    · exact ⟨_, hcreate⟩

variable {op : RamfsEntryOp}

/-- An open entry that is deleted is still found. -/
theorem Shown.delete_open (h : s.Shown kids) (hwritable : s.readOnly = false)
    (hpath : s.getDirent path = some (.ok p)) (hopen : 0 < (s.dirents p).openCount) :
    ∃ fs, s.delete path = some (0, fs) ∧ fs.getDirent path = some (.ok p) := by
  obtain ⟨hmarked, hsame⟩ := h.toTree.marked p
  rw [h.toListed.delete_eq hwritable hpath, if_pos hopen]
  refine ⟨_, rfl, ?_⟩
  rw [hmarked.getDirent_iff, funext hsame]
  exact h.toTree.getDirent_iff.mp hpath

theorem Shown.ne_root (h : s.Shown kids) (hwritable : s.readOnly = false)
    (hpath : s.getDirent path = some (.ok p)) (hclosed : (s.dirents p).openCount = 0)
    (hreturns : (s.delete path).isSome) : p ≠ s.root := by
  rintro rfl
  have hzero : ¬ 0 < (s.dirents s.root).openCount := by
    rw [hclosed]
    exact Nat.lt_irrefl 0
  rw [h.toListed.delete_eq hwritable hpath, if_neg hzero, Ramfs.freeDirent,
    unlink_of_no_parent] at hreturns
  · cases hreturns
  · rw [setDirent_self]
    exact h.top

theorem found_of_delete (hdelete : s.delete path = some (0, s')) :
    s.readOnly = false ∧ ∃ p, s.getDirent path = some (.ok p) := by
  by_cases hro : s.readOnly = true
  · rw [Ramfs.delete, if_pos hro] at hdelete
    cases hdelete
  refine ⟨Bool.eq_false_of_not_eq_true hro, ?_⟩
  rw [Ramfs.delete, if_neg hro] at hdelete
  cases hpath : s.getDirent path with
  | none =>
      rw [hpath] at hdelete
      cases hdelete
  | some found =>
      cases found with
      | error res =>
          rw [hpath] at hdelete
          cases hdelete
          exact absurd (walkNames_error_neg (by decide) hpath) (Int.lt_irrefl 0)
      | ok p => exact ⟨p, rfl⟩

/-- A call that deletes nothing that is open keeps all entries in sight. -/
theorem Shown.step (h : s.Shown kids) (hreturns : s.Returns op) (hclosed : s.DeletesClosed op) :
    ∃ kids', (s.entryStep op).Shown kids' := by
  obtain ⟨hnew, hsome⟩ := hreturns
  obtain ⟨⟨res, s'⟩, hcall⟩ := Option.isSome_iff_exists.mp hsome
  have hstep : s.entryStep op = s' := by
    rw [entryStep, hcall]
    rfl
  rw [hstep]
  cases op with
  | createFile new path => exact h.create hnew hcall
  | createDirectory new path => exact h.create hnew hcall
  | mknod new path type device =>
      rw [entryCall, Ramfs.mknod] at hcall
      split at hcall
      · cases hcall
        exact ⟨kids, h⟩
      · split at hcall
        · cases hcall
          exact ⟨kids, h⟩
        · exact h.create hnew hcall
  | openDirent p =>
      obtain ⟨fs, hopen, heq⟩ := Option.map_eq_some_iff.mp hcall
      cases heq
      exact ⟨kids, h.openCounted hopen⟩
  | closeDirent p => exact ⟨kids, h.closeCounted hcall⟩
  | delete path =>
      by_cases hro : s.readOnly = true
      · rw [entryCall, Ramfs.delete, if_pos hro] at hcall
        cases hcall
        exact ⟨kids, h⟩
      have hwritable := Bool.eq_false_of_not_eq_true hro
      cases hpath : s.getDirent path with
      | none =>
          rw [entryCall, Ramfs.delete, if_neg hro, hpath] at hcall
          cases hcall
      | some found =>
          cases found with
          | error e =>
              rw [entryCall, Ramfs.delete, if_neg hro, hpath] at hcall
              cases hcall
              exact ⟨kids, h⟩
          | ok p =>
              have hzero := (hclosed hwritable p hpath).1
              have hroot := h.ne_root hwritable hpath hzero hsome
              obtain ⟨fs, hdelete, hfs⟩ := h.delete hwritable hpath hroot hzero
              cases hcall.symm.trans hdelete
              exact ⟨_, hfs.shown⟩

/-- A call keeps search and listing together exactly when it deletes nothing that is open. -/
theorem Shown.agrees_iff (h : s.Shown kids) (hreturns : s.Returns op) :
    s.Agrees op ↔ s.DeletesClosed op := by
  constructor
  · intro hagrees
    cases op with
    | delete path =>
        intro hwritable p hpath
        have hzero : (s.dirents p).openCount = 0 := by
          by_contra hopen
          obtain ⟨fs, hdelete, hfound⟩ :=
            h.delete_open hwritable hpath (Nat.pos_of_ne_zero hopen)
          obtain ⟨res, hmissing⟩ := (hagrees.2 path rfl fs hdelete).1
          cases hfound.symm.trans hmissing
        have hroot := h.ne_root hwritable hpath hzero hreturns.2
        obtain ⟨fs, hdelete, hfs⟩ := h.delete hwritable hpath hroot hzero
        exact ⟨hzero,
          (hfs.gone_iff h hwritable hroot hpath).mp (hagrees.2 path rfl fs hdelete)⟩
    | _ => trivial
  · intro hclosed
    obtain ⟨kids', hshown⟩ := h.step hreturns hclosed
    refine ⟨hshown.lists, ?_⟩
    rintro path rfl s' hdelete
    obtain ⟨hwritable, p, hpath⟩ := found_of_delete hdelete
    obtain ⟨hzero, hfits⟩ := hclosed hwritable p hpath
    have hroot := h.ne_root hwritable hpath hzero hreturns.2
    obtain ⟨fs, hdelete', hfs⟩ := h.delete hwritable hpath hroot hzero
    cases hdelete.symm.trans hdelete'
    exact (hfs.gone_iff h hwritable hroot hpath).mpr hfits

/-- From mounting on, what is found in a directory and what it lists are the same, and what is
deleted is gone, if and only if nothing that is open is deleted. -/
theorem ramfs_lists_what_it_finds_iff {root : Nat} {readOnly : Bool} {ops : List RamfsEntryOp}
    (hreturns : Along entryStep Returns (ramfsMount root readOnly) ops) :
    (ramfsMount root readOnly).ListsWhatItFinds ∧
      (Along entryStep Agrees (ramfsMount root readOnly) ops ↔
        Along entryStep DeletesClosed (ramfsMount root readOnly) ops) := by
  refine ⟨(mount_shown root readOnly).lists, ?_⟩
  apply Along.iff_of_step (fun s => ∃ kids, s.Shown kids) ?_ ⟨_, mount_shown root readOnly⟩ hreturns
  rintro s op ⟨kids, h⟩ hreturns
  have hiff := h.agrees_iff hreturns
  exact ⟨hiff, fun hagrees => h.step hreturns (hiff.mp hagrees)⟩

def deleteInOrder : List RamfsEntryOp :=
  [.createFile 1 "a".toList, .openDirent 1, .closeDirent 1, .delete "a".toList]

theorem ramfs_lists_in_order :
    Along entryStep Agrees (ramfsMount 0 false) deleteInOrder := by
  refine (ramfs_lists_what_it_finds_iff ?_).2.mpr ⟨trivial, trivial, trivial, ?_, trivial⟩
  · exact ⟨⟨(by decide : 1 ∉ ({0} : Finset Nat)), rfl⟩, ⟨trivial, rfl⟩, ⟨trivial, rfl⟩,
      ⟨trivial, rfl⟩, trivial⟩
  · intro _ p hp
    obtain rfl : 1 = p := Except.ok.inj (Option.some.inj hp)
    unfold RamfsFiles.FitsParts
    decide

def deleteOpen : List RamfsEntryOp :=
  [.createFile 1 "a".toList, .openDirent 1, .delete "a".toList]

/-- The directory does not list the file, which is found in it and cannot be made again. -/
theorem ramfs_finds_deleted :
    Along entryStep Returns (ramfsMount 0 false) deleteOpen ∧
      ¬ Along entryStep Agrees (ramfsMount 0 false) deleteOpen ∧
      (deleteOpen.foldl entryStep (ramfsMount 0 false)).lookup "a".toList 0 = some (.ok 1) ∧
      (deleteOpen.foldl entryStep (ramfsMount 0 false)).readdir 0 0 = some (.error 0) := by
  have hreturns : Along entryStep Returns (ramfsMount 0 false) deleteOpen :=
    ⟨⟨(by decide : 1 ∉ ({0} : Finset Nat)), rfl⟩, ⟨trivial, rfl⟩, ⟨trivial, rfl⟩, trivial⟩
  refine ⟨hreturns, fun hagrees => ?_, rfl, rfl⟩
  obtain ⟨res, hmissing⟩ := (hagrees.2.2.1.2 "a".toList rfl _ rfl).1
  cases hmissing

end Ramfs

end GlitchedOS
