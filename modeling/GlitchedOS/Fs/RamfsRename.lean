/-
Renaming in a ramfs.  The entry is taken out of its directory and gets its name before the
new directory is looked up, and it is put into that as a new entry without entries.
-/
import GlitchedOS.Fs.RamfsTree

namespace GlitchedOS

namespace Ramfs

/-- The new path leads to where the old one led, and on from there; the old one leads nowhere,
but for a new path that lies there; and names tell the entries of a directory apart. -/
structure Moved (s s' : Ramfs) (oldPath newPath : List Char) : Prop where
  resolves : ∀ rest p, s.getDirent (oldPath ++ '/' :: rest) = some (.ok p) →
    s'.getDirent (newPath ++ '/' :: rest) = some (.ok p)
  gone : ∀ rest p, s'.getDirent (oldPath ++ '/' :: rest) = some (.ok p) →
    pathNames oldPath <+: pathNames newPath
  distinct : ∀ d ∈ s'.live, ∀ l, Chain (fun p => (s'.dirents p).next) (s'.dirents d).child l →
    (l.map s'.nameOf).Nodup

/-- `ramfs_rename` moves an entry with all below it, or fails and changes nothing. -/
def RenameMoves (s : Ramfs) (oldPath newPath : List Char) : Prop :=
  ∃ res s', s.rename oldPath newPath = some (res, s') ∧
    (res = 0 → s.Moved s' oldPath newPath) ∧ (res < 0 → s' = s)

/-- An entry without entries, and a path for it in another directory that is there, with
room in the buffers for its parts and no other entry at it. -/
structure CanMove (s : Ramfs) (p : Nat) (newPath : List Char) : Prop where
  leaf : (s.dirents p).child = none
  fits : RamfsFiles.FitsParts newPath
  named : filenameOf newPath ≠ []
  directory : ∃ d, s.getDirent (dirnameOf newPath) = some (.ok d) ∧ d ≠ p ∧
    (s.dirents d).type = .dir
  free : ∀ q, s.getDirent newPath = some (.ok q) → q = p

variable {s : Ramfs} {kids : Nat → List Nat} {d p : Nat} {oldPath newPath : List Char}

/-- The first half of `ramfs_rename`: the tree without the entry, which has its new name. -/
structure Detached (s fs : Ramfs) (kids : Nat → List Nat) (p : Nat) (newPath : List Char) :
    Prop where
  tree : fs.Tree fun q => (kids q).erase p
  live : fs.live = s.live
  root : fs.root = s.root
  readOnly : fs.readOnly = s.readOnly
  name : fs.nameOf p = filenameOf newPath
  names : ∀ q, q ≠ p → fs.nameOf q = s.nameOf q
  type : ∀ q, (fs.dirents q).type = (s.dirents q).type

theorem Tree.detach (h : s.Tree kids) (hp : p ∈ kids d) (newPath : List Char) :
    ∃ fs, s.detach p newPath = some fs ∧ Detached s fs kids p newPath := by
  have hd := h.live_of_mem hp
  have hlive := (h.entry d hd p hp).1
  obtain ⟨l, r, hkids⟩ := List.append_of_mem hp
  have hunlinked := h.unlinked hkids
  have hnames : ∀ q, q ≠ p → ((s.unlinked d p l r).setDirent p
      fun d => { d with name := filenameOf newPath }).nameOf q = s.nameOf q := by
    intro q hq
    rw [nameOf, setDirent_ne hq]
    rfl
  refine ⟨(s.unlinked d p l r).setDirent p fun d => { d with name := filenameOf newPath }, ?_, ?_,
    rfl, rfl, rfl, ?_, hnames, ?_⟩
  · rw [Ramfs.detach, h.toListed.unlink hd hkids]
    exact modify_of_mem (s := s.unlinked d p l r) hlive _
  · have hlinks := sameLinks_setDirent (f := fun d => { d with name := filenameOf newPath })
      (s.unlinked d p l r) p fun d => ⟨rfl, rfl, rfl, rfl, rfl⟩
    refine hunlinked.sub (hlinks.listed hunlinked.toListed) (fun q => List.Sublist.refl _)
      (fun q a ha => ?_) hunlinked.dead
    exact hnames a fun heq => h.not_mem_erase p q (heq ▸ ha)
  · rw [nameOf, setDirent_self]
  · intro q
    by_cases hq : q = p
    · rw [hq, setDirent_self]
      rfl
    · rw [setDirent_ne hq]
      rfl

/-- A renaming fails with the entry lost, or puts it into its new directory. -/
theorem Tree.rename_cases (h : s.Tree kids) (hwritable : s.readOnly = false)
    (hold : s.getDirent oldPath = some (.ok p)) (hroot : p ≠ s.root)
    (hfits : RamfsFiles.FitsParts newPath) :
    ∃ fs, Detached s fs kids p newPath ∧
      ((∃ res < 0, s.rename oldPath newPath = some (res, fs) ∧
          ¬ ∃ d, fs.getDirent (dirnameOf newPath) = some (.ok d) ∧ (fs.dirents d).type = .dir) ∨
        ∃ d ∈ s.live, d ≠ p ∧ (s.dirents d).type = .dir ∧
          fs.getDirent (dirnameOf newPath) = some (.ok d) ∧
          s.rename oldPath newPath = some (0, fs.linked d p)) := by
  have htree := h.toListed.inTree_of_getDirent hold
  obtain ⟨d₀, -, hmem⟩ := htree.resolve_left hroot
  obtain ⟨fs, hdetach, hdetached⟩ := h.detach hmem newPath
  have hro : ¬ s.readOnly = true := by
    rw [hwritable]
    exact Bool.false_ne_true
  have hparts : ¬ (256 ≤ (dirnameOf newPath).length ∨ 256 ≤ (filenameOf newPath).length) := by
    rw [not_or, Nat.not_le, Nat.not_le]
    exact hfits
  have hrename : s.rename oldPath newPath = fs.addDirent (dirnameOf newPath) p := by
    rw [Ramfs.rename, if_neg hro, hold, Option.bind_eq_bind, Option.bind_some]
    dsimp only
    rw [if_neg hparts, hdetach]
    rfl
  have hlive : p ∈ fs.live := by
    rw [hdetached.live]
    exact h.toListed.mem_live htree
  have hroot' : p ≠ fs.root := by
    rw [hdetached.root]
    exact hroot
  refine ⟨fs, hdetached, ?_⟩
  rw [hrename]
  rcases hdetached.tree.toListed.addDirent (hdetached.readOnly.trans hwritable)
    (RamfsFiles.fitsNames_dirname hfits.1) hlive hroot' fun q _ => h.not_mem_erase p q with
    hlost | ⟨d, hd, hne, hdir, hfound, hadd⟩
  · exact .inl hlost
  · refine .inr ⟨d, ?_, hne, ?_, hfound, hadd⟩
    · rwa [hdetached.live] at hd
    · rwa [hdetached.type] at hdir

/-- The entries of each directory after a renaming. -/
def kidsAfter (kids : Nat → List Nat) (d p : Nat) : Nat → List Nat :=
  Function.update (Function.update (fun q => (kids q).erase p) p []) d (p :: (kids d).erase p)

theorem kidsAfter_self (kids : Nat → List Nat) (hne : d ≠ p) : kidsAfter kids d p p = [] := by
  rw [kidsAfter, Function.update_of_ne hne.symm, Function.update_self]

theorem kidsAfter_dir (kids : Nat → List Nat) (d p : Nat) :
    kidsAfter kids d p d = p :: (kids d).erase p := Function.update_self ..

theorem mem_of_mem_kidsAfter {q a : Nat} (h : a ∈ kidsAfter kids d p q) (hne : a ≠ p) :
    a ∈ kids q ∧ (q = p → d = p) := by
  by_cases hqd : q = d
  · subst hqd
    rw [kidsAfter_dir] at h
    exact ⟨List.mem_of_mem_erase ((List.mem_cons.mp h).resolve_left hne), id⟩
  · rw [kidsAfter, Function.update_of_ne hqd] at h
    by_cases hqp : q = p
    · subst hqp
      rw [Function.update_self] at h
      cases h
    · rw [Function.update_of_ne hqp] at h
      exact ⟨List.mem_of_mem_erase h, fun heq => absurd heq hqp⟩

theorem erase_subset_kidsAfter (hleaf : kids p = []) (q : Nat) :
    (kids q).erase p ⊆ kidsAfter kids d p q := by
  by_cases hqd : q = d
  · subst hqd
    rw [kidsAfter_dir]
    exact List.subset_cons_self ..
  · rw [kidsAfter, Function.update_of_ne hqd]
    by_cases hqp : q = p
    · subst hqp
      rw [hleaf]
      exact List.nil_subset _
    · rw [Function.update_of_ne hqp]
      exact List.Subset.refl _

theorem Tree.kids_of_leaf (h : s.Tree kids) (hp : p ∈ s.live) (hleaf : (s.dirents p).child = none) :
    kids p = [] := by
  have hstart := (h.list p hp).start_eq
  rw [hleaf] at hstart
  exact List.head?_eq_none_iff.mp hstart.symm

variable {fs : Ramfs} {a b : Nat} {xs : List (List Char)}

/-- What can be reached without the entry could be reached with it. -/
theorem Detached.leads_old (hfs : Detached s fs kids p newPath) (h : s.Tree kids)
    (hleads : LabelPath (fun q => (kids q).erase p) fs.nameOf a xs b) :
    LabelPath kids s.nameOf a xs b := by
  apply hleads.mono
  · exact fun q => List.erase_subset
  · intro q c hc
    exact (hfs.names c fun heq => h.not_mem_erase p q (heq ▸ hc)).symm

/-- What is not the entry is reached without it, when it has no entries. -/
theorem Detached.leads (hfs : Detached s fs kids p newPath) (hleaf : kids p = []) (hne : b ≠ p)
    (hleads : LabelPath kids s.nameOf a xs b) :
    LabelPath (fun q => (kids q).erase p) fs.nameOf a xs b := by
  apply hleads.avoid hleaf _ hne
  intro q c hc hcp
  exact ⟨(List.mem_erase_of_ne hcp).mpr hc, hfs.names c hcp⟩

/-- An entry that can move is moved. -/
theorem Tree.renameMoves (h : s.Tree kids) (hwritable : s.readOnly = false)
    (hold : s.getDirent oldPath = some (.ok p)) (hroot : p ≠ s.root)
    (hmove : s.CanMove p newPath) : s.RenameMoves oldPath newPath := by
  have hlive := h.toListed.mem_live (h.toListed.inTree_of_getDirent hold)
  have hleaf := h.kids_of_leaf hlive hmove.leaf
  obtain ⟨d, hfound, hdp, hdir⟩ := hmove.directory
  obtain ⟨fs, hfs, hcases⟩ := h.rename_cases hwritable hold hroot hmove.fits
  -- the new directory is found without the entry, too
  have hdirLeads := hfs.leads hleaf hdp (h.getDirent_iff.mp hfound)
  have hfound' : fs.getDirent (dirnameOf newPath) = some (.ok d) := by
    rw [hfs.tree.getDirent_iff, hfs.root]
    exact hdirLeads
  rcases hcases with ⟨res, -, -, hlost⟩ | ⟨d', hd, -, -, hfound'', hrename⟩
  · exact absurd ⟨d, hfound', (hfs.type d).trans hdir⟩ hlost
  obtain rfl := Except.ok.inj (Option.some.inj (hfound'.symm.trans hfound''))
  have hold' := h.getDirent_iff.mp hold
  have hnames := pathNames_eq hmove.named
  -- nothing else in the directory has the name
  have hfresh : ∀ q ∈ (kids d).erase p, fs.nameOf q ≠ fs.nameOf p := by
    intro q hq hname
    have hqp : q ≠ p := fun heq => h.not_mem_erase p d (heq ▸ hq)
    rw [hfs.name, hfs.names q hqp] at hname
    refine hqp (hmove.free q (h.getDirent_iff.mpr ?_))
    rw [hnames]
    exact LabelPath.snoc_iff.mpr ⟨d, h.getDirent_iff.mp hfound, List.mem_of_mem_erase hq, hname⟩
  have hname : IsName (fs.nameOf p) ∧ (fs.nameOf p).length < 256 := by
    rw [hfs.name]
    exact ⟨isName_filenameOf hmove.named, hmove.fits.2⟩
  have htree : (fs.linked d p).Tree (kidsAfter kids d p) :=
    hfs.tree.linked (by rw [hfs.live]; exact hd) (by rw [hfs.live]; exact hlive) hdp
      ((hfs.type d).trans hdir) (by rw [hfs.root]; exact hroot) (h.not_mem_erase p) hname hfresh
  have hroot' : (fs.linked d p).root = s.root := hfs.root
  have hnew : LabelPath (kidsAfter kids d p) fs.nameOf s.root (pathNames newPath) p := by
    rw [hnames]
    refine LabelPath.snoc_iff.mpr ⟨d, ?_, ?_, hfs.name⟩
    · exact hdirLeads.mono (erase_subset_kidsAfter hleaf) fun _ _ _ => rfl
    · rw [kidsAfter_dir]
      exact List.mem_cons_self
  refine ⟨0, _, hrename, fun _ => ⟨fun rest q hq => ?_, fun rest q hq => ?_, fun q hq l hl => ?_⟩,
    fun hneg => absurd hneg (Int.lt_irrefl 0)⟩
  · rw [h.getDirent_iff, pathNames_append, LabelPath.append_iff] at hq
    obtain ⟨c, hc, hrest⟩ := hq
    obtain rfl := hc.end_unique h.distinct hold'
    obtain ⟨rfl, hnil⟩ := hrest.of_leaf hleaf
    rw [htree.getDirent_iff, pathNames_append, hnil, List.append_nil, hroot']
    exact hnew
  · rw [htree.getDirent_iff, pathNames_append, LabelPath.append_iff, hroot'] at hq
    obtain ⟨c, hc, -⟩ := hq
    by_cases hcp : c = p
    · subst hcp
      have heq := hc.word_unique (hroot' ▸ htree.rooted) hnew
      rw [heq]
    · -- the old path led to the entry, and to nothing else
      have hbefore : LabelPath kids s.nameOf s.root (pathNames oldPath) c := by
        apply hc.avoid (kidsAfter_self kids hdp) _ hcp
        intro q e he hep
        exact ⟨(mem_of_mem_kidsAfter he hep).1, (hfs.names e hep).symm⟩
      exact absurd (hbefore.end_unique h.distinct hold') hcp
  · rw [hl.unique (htree.list q hq).chain]
    exact htree.distinct q

theorem Detached.ne (hfs : Detached s fs kids p newPath) (h : s.Tree kids) (hp : p ∈ kids d) :
    fs ≠ s := by
  rintro rfl
  have hd := h.live_of_mem hp
  have hsame := (h.list d hd).chain.unique (hfs.tree.list d hd).chain
  rw [hsame] at hp
  exact h.not_mem_erase p d hp

theorem Tree.leaf_of_moved (h : s.Tree kids) (hold : s.getDirent oldPath = some (.ok p))
    (hfs : Detached s fs kids p newPath) (hdp : d ≠ p)
    (hlisted : (fs.linked d p).Listed (kidsAfter kids d p))
    (hmoved : s.Moved (fs.linked d p) oldPath newPath) : (s.dirents p).child = none := by
  have hlive := h.toListed.mem_live (h.toListed.inTree_of_getDirent hold)
  have hold' := h.getDirent_iff.mp hold
  cases hchild : (s.dirents p).child with
  | none => rfl
  | some c =>
      have hc : c ∈ kids p := by
        have hstart := (h.list p hlive).start_eq
        rw [hchild] at hstart
        exact List.mem_of_mem_head? hstart.symm
      have hbelow : s.getDirent (oldPath ++ '/' :: s.nameOf c) = some (.ok c) := by
        rw [h.getDirent_iff, pathNames_append, pathNames_name (h.named p c hc).1]
        exact LabelPath.snoc_iff.mpr ⟨p, hold', hc, rfl⟩
      have hafter := hlisted.leads hlisted.root (hmoved.resolves _ _ hbelow)
      rw [pathNames_append, pathNames_name (h.named p c hc).1] at hafter
      obtain ⟨q, -, hcq, -⟩ := LabelPath.snoc_iff.mp hafter
      have hcp : c ≠ p := by
        -- no entry is below itself
        rintro rfl
        have htwice : LabelPath kids s.nameOf s.root (pathNames oldPath ++ [s.nameOf c]) c :=
          LabelPath.snoc_iff.mpr ⟨c, hold', hc, rfl⟩
        have hlength := congrArg List.length (hold'.word_unique h.rooted htwice)
        rw [List.length_append, List.length_singleton] at hlength
        omega
      obtain ⟨hmem, hdir⟩ := mem_of_mem_kidsAfter hcq hcp
      exact absurd (hdir (h.rooted.parent q p c hmem hc)) hdp

/-- A renaming that moves an entry, or changes nothing, was of one that can move. -/
theorem Tree.canMove (h : s.Tree kids) (hwritable : s.readOnly = false)
    (hold : s.getDirent oldPath = some (.ok p)) (hroot : p ≠ s.root)
    (hmoves : s.RenameMoves oldPath newPath) : s.CanMove p newPath := by
  obtain ⟨res, s', hrename, hmoved, hsame⟩ := hmoves
  obtain ⟨d₀, -, hmem⟩ := (h.toListed.inTree_of_getDirent hold).resolve_left hroot
  have hlive := h.toListed.mem_live (h.toListed.inTree_of_getDirent hold)
  have hold' := h.getDirent_iff.mp hold
  have hro : ¬ s.readOnly = true := by
    rw [hwritable]
    exact Bool.false_ne_true
  have hfits : RamfsFiles.FitsParts newPath := by
    by_contra hlong
    rw [Ramfs.rename, if_neg hro, hold, Option.bind_eq_bind, Option.bind_some] at hrename
    dsimp only at hrename
    rw [if_pos (by rw [RamfsFiles.FitsParts] at hlong; omega)] at hrename
    cases hrename
  obtain ⟨fs, hfs, ⟨res', hneg, hrename', -⟩ | ⟨d, hd, hdp, hdir, hfound, hrename'⟩⟩ :=
    h.rename_cases hwritable hold hroot hfits
  · cases hrename.symm.trans hrename'
    exact absurd (hsame hneg) (hfs.ne h hmem)
  · cases hrename.symm.trans hrename'
    have hmoved := hmoved rfl
    have hlisted : (fs.linked d p).Listed (kidsAfter kids d p) :=
      hfs.tree.toListed.linked (by rw [hfs.live]; exact hd) (by rw [hfs.live]; exact hlive) hdp
        ((hfs.type d).trans hdir) (by rw [hfs.root]; exact hroot) fun q _ => h.not_mem_erase p q
    have hroot' : (fs.linked d p).root = s.root := hfs.root
    have hdirLeads : LabelPath kids s.nameOf s.root (pathNames (dirnameOf newPath)) d := by
      have hleads := hfs.tree.getDirent_iff.mp hfound
      rw [hfs.root] at hleads
      exact hfs.leads_old h hleads
    have hnamed : filenameOf newPath ≠ [] := by
      intro hnil
      have hself : s.getDirent (oldPath ++ '/' :: []) = some (.ok p) := by
        rw [h.getDirent_iff, pathNames_append]
        exact (List.append_nil (pathNames oldPath)).symm ▸ hold'
      have hafter := hlisted.leads hlisted.root (hmoved.resolves _ _ hself)
      rw [pathNames_append, pathNames_of_no_name hnil, hroot'] at hafter
      exact hroot hafter
    refine ⟨h.leaf_of_moved hold hfs hdp hlisted hmoved, hfits, hnamed,
      ⟨d, h.getDirent_iff.mpr hdirLeads, hdp, hdir⟩, fun q hq => ?_⟩
    by_contra hqp
    -- two entries of the directory would have the name
    rw [h.getDirent_iff, pathNames_eq hnamed] at hq
    obtain ⟨x, hx, hqx, hname⟩ := LabelPath.snoc_iff.mp hq
    obtain rfl := hx.end_unique h.distinct hdirLeads
    have hchain := (hlisted.list x (by rw [← hfs.live] at hd; exact hd)).chain
    have hnodup := hmoved.distinct x (by rw [← hfs.live] at hd; exact hd) _ hchain
    rw [kidsAfter_dir, List.map_cons, List.nodup_cons] at hnodup
    apply hnodup.1
    refine List.mem_map.mpr ⟨q, (List.mem_erase_of_ne hqp).mpr hqx, ?_⟩
    change fs.nameOf q = fs.nameOf p
    rw [hfs.name, hfs.names q hqp, hname]

/-- `ramfs_rename` of an entry moves it, or fails and changes nothing, if and only if the
mount is read-only or the entry can move. -/
theorem ramfs_rename_moves_iff (h : s.Tree kids) (hold : s.getDirent oldPath = some (.ok p))
    (hroot : p ≠ s.root) :
    s.RenameMoves oldPath newPath ↔ s.readOnly = true ∨ s.CanMove p newPath := by
  by_cases hro : s.readOnly = true
  · refine ⟨fun _ => .inl hro, fun _ => ⟨eRofs, s, if_pos hro, ?_, fun _ => rfl⟩⟩
    exact fun hzero => absurd hzero (by decide)
  · have hwritable := Bool.eq_false_of_not_eq_true hro
    constructor
    · exact fun hmoves => .inr (h.canMove hwritable hold hroot hmoves)
    · exact fun hmove => h.renameMoves hwritable hold hroot (hmove.resolve_left hro)

def oneDirectory : Ramfs :=
  ((ramfsMount 0 false).insertDirent 1 (newDirent "d".toList .dir 0)).linked 0 1

def directoryWithFile : Ramfs :=
  (oneDirectory.insertDirent 2 (newDirent "f".toList .file 0)).linked 1 2

theorem oneDirectory_tree : ∃ kids, oneDirectory.Tree kids := by
  have hfits : RamfsFiles.FitsParts "d".toList := by
    unfold RamfsFiles.FitsParts
    decide
  have hmissing : (ramfsMount 0 false).getDirent "d".toList = some (.error eNoent) := rfl
  rcases (mount_tree 0 false).create rfl (by decide : 1 ∉ ({0} : Finset Nat)) hfits hmissing
    .dir 0 with ⟨res, -, -, hlost⟩ | ⟨d, kids, hdir, -, htree⟩
  · exact absurd ⟨0, rfl, rfl⟩ hlost
  · obtain rfl : 0 = d := Except.ok.inj (Option.some.inj hdir)
    exact ⟨kids, htree⟩

theorem directoryWithFile_tree : ∃ kids, directoryWithFile.Tree kids := by
  obtain ⟨kids, htree⟩ := oneDirectory_tree
  have hfits : RamfsFiles.FitsParts "d/f".toList := by
    unfold RamfsFiles.FitsParts
    decide
  have hmissing : oneDirectory.getDirent "d/f".toList = some (.error eNoent) := rfl
  rcases htree.create rfl (by decide : 2 ∉ oneDirectory.live) hfits hmissing .file 0 with
    ⟨res, -, -, hlost⟩ | ⟨d, kids, hdir, -, htree⟩
  · exact absurd ⟨1, rfl, rfl⟩ hlost
  · obtain rfl : 1 = d := Except.ok.inj (Option.some.inj hdir)
    exact ⟨kids, htree⟩

/-- The file moves out of the directory. -/
theorem ramfs_rename_moves_file : directoryWithFile.RenameMoves "d/f".toList "g".toList := by
  obtain ⟨kids, htree⟩ := directoryWithFile_tree
  have hfits : RamfsFiles.FitsParts "g".toList := by
    unfold RamfsFiles.FitsParts
    decide
  have hold : directoryWithFile.getDirent "d/f".toList = some (.ok 2) := rfl
  have hroot : 2 ≠ directoryWithFile.root := by decide
  have hmove : directoryWithFile.CanMove 2 "g".toList := by
    refine ⟨rfl, hfits, by decide, ⟨0, rfl, by decide, rfl⟩, fun q hq => ?_⟩
    cases hq
  exact (ramfs_rename_moves_iff htree hold hroot).mpr (.inr hmove)

/-- The file is lost with the entries of the directory. -/
theorem ramfs_rename_loses_entries :
    (∃ kids, directoryWithFile.Tree kids) ∧
      directoryWithFile.getDirent "d".toList = some (.ok 1) ∧ 1 ≠ directoryWithFile.root ∧
      ¬ directoryWithFile.RenameMoves "d".toList "e".toList := by
  obtain ⟨kids, htree⟩ := directoryWithFile_tree
  refine ⟨⟨kids, htree⟩, rfl, by decide, ?_⟩
  rintro ⟨res, s', hrename, hmoved, -⟩
  cases hrename
  have hfile := (hmoved rfl).resolves "f".toList 2 rfl
  cases hfile

end Ramfs

end GlitchedOS
