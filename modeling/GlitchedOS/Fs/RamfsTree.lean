/-
The tree of a ramfs.  The names of a path lead from the root to an entry, siblings have
different names, and so an entry has one path and a path one entry.
-/
import GlitchedOS.Fs.RamfsRuns
import GlitchedOS.Lib.LabelPath

namespace GlitchedOS

theorem pathNames_append (path rest : List Char) :
    pathNames (path ++ '/' :: rest) = pathNames path ++ pathNames rest := by
  rw [pathNames, List.splitOn_append_cons_self, List.filter_append]
  rfl

theorem pathNames_name {name : List Char} (h : IsName name) : pathNames name = [name] := by
  rw [pathNames, List.splitOn_eq_singleton h.2]
  exact List.filter_cons_of_pos (decide_eq_true h.1)

theorem not_of_rdropWhile {P : Char → Bool} {l front : List Char} {c : Char}
    (h : l.rdropWhile P = front ++ [c]) : ¬ P c = true := by
  have hne : l.rdropWhile P ≠ [] := by
    rw [h]
    exact List.concat_ne_nil c front
  have hlast := List.rdropWhile_last_not P l hne
  rwa [List.getLast_congr hne (List.concat_ne_nil c front) h, List.getLast_concat] at hlast

theorem pathNames_rdropWhile (path : List Char) :
    pathNames (path.rdropWhile (· = '/')) = pathNames path := by
  induction path using List.reverseRecOn with
  | nil => rfl
  | append_singleton path c ih =>
      by_cases hc : c = '/'
      · subst hc
        rw [List.rdropWhile_concat_pos _ _ _ (by simp), ih, pathNames_append]
        exact (List.append_nil _).symm
      · rw [List.rdropWhile_concat_neg _ _ _ (by simpa using hc)]

theorem isName_filenameOf {path : List Char} (h : filenameOf path ≠ []) :
    IsName (filenameOf path) := by
  refine ⟨h, fun hmem => ?_⟩
  have hslash := List.mem_rtakeWhile_imp hmem
  simp at hslash

/-- The names of a path are those of its directory, and its own. -/
theorem pathNames_eq {path : List Char} (h : filenameOf path ≠ []) :
    pathNames path = pathNames (dirnameOf path) ++ [filenameOf path] := by
  have hname := isName_filenameOf h
  rw [← pathNames_rdropWhile path]
  rw [filenameOf] at h hname ⊢
  rw [dirnameOf]
  generalize path.rdropWhile (· = '/') = base at *
  have hsplit := List.rdropWhile_append_rtakeWhile (p := (· ≠ '/')) (l := base)
  rcases List.eq_nil_or_concat' (base.rdropWhile (· ≠ '/')) with hnil | ⟨front, c, hfront⟩
  · rw [hnil, List.nil_append] at hsplit
    rw [hnil, ← pathNames_name hname, hsplit]
    rfl
  · have hlast : c = '/' := by simpa using not_of_rdropWhile hfront
    rw [hfront, List.append_assoc, List.singleton_append, hlast] at hsplit
    rw [hfront, List.dropLast_concat, ← pathNames_name hname, ← pathNames_append, hsplit]

theorem pathNames_of_no_name {path : List Char} (h : filenameOf path = []) :
    pathNames path = [] := by
  rw [filenameOf] at h
  rw [← pathNames_rdropWhile path]
  rcases List.eq_nil_or_concat' (path.rdropWhile (· = '/')) with hnil | ⟨front, c, hfront⟩
  · rw [hnil]
    rfl
  · have hlast : c ≠ '/' := by simpa using not_of_rdropWhile hfront
    rw [hfront, List.rtakeWhile_concat_pos _ _ _ (by simpa using hlast)] at h
    cases List.concat_ne_nil c _ h

namespace Ramfs

variable {s s' : Ramfs} {kids : Nat → List Nat} {d p at_ : Nat} {name : List Char}
  {names : List (List Char)}

def nameOf (s : Ramfs) (p : Nat) : List Char := (s.dirents p).name

/-- The entries form a tree, with names that a path can have and that tell the entries of
a directory apart. -/
structure Tree (s : Ramfs) (kids : Nat → List Nat) : Prop extends Listed s kids where
  named : ∀ d, ∀ p ∈ kids d, IsName (s.nameOf p) ∧ (s.nameOf p).length < 256
  distinct : ∀ d, ((kids d).map s.nameOf).Nodup
  dead : ∀ d, d ∉ s.live → kids d = []

theorem Tree.live_of_mem (h : s.Tree kids) (hp : p ∈ kids d) : d ∈ s.live := by
  by_contra hd
  rw [h.dead d hd] at hp
  cases hp

theorem Tree.rooted (h : s.Tree kids) : Rooted kids s.root where
  parent a b c hca hcb := by
    have ha := (h.entry a (h.live_of_mem hca) c hca).2.2
    have hb := (h.entry b (h.live_of_mem hcb) c hcb).2.2
    exact Option.some.inj (ha.symm.trans hb)
  root d hd := (h.entry d (h.live_of_mem hd) s.root hd).2.1 rfl

theorem findChild_eq {start : Option Nat} {l : List Nat} {n : Nat}
    (h : Chain (fun p => (s.dirents p).next) start l) (hlive : ∀ p ∈ l, p ∈ s.live)
    (hn : l.length ≤ n) :
    s.findChild name n start = some (l.find? fun p => decide (s.nameOf p = name)) := by
  induction l generalizing start n with
  | nil =>
      obtain rfl : start = none := h
      cases n <;> rfl
  | cons p rest ih =>
      obtain ⟨rfl, hrest⟩ := h
      cases n with
      | zero => exact absurd hn (Nat.not_succ_le_zero _)
      | succ n =>
          rw [findChild, get_of_mem (hlive p List.mem_cons_self), Option.bind_eq_bind,
            Option.bind_some]
          change (if s.nameOf p = name then _ else _) = _
          by_cases hname : s.nameOf p = name
          · have hhead : (p :: rest).find? (fun p => decide (s.nameOf p = name)) = some p :=
              List.find?_cons_of_pos (p := fun p => decide (s.nameOf p = name))
                (decide_eq_true hname)
            rw [if_pos hname, hhead]
          · have htail : (p :: rest).find? (fun p => decide (s.nameOf p = name)) =
                rest.find? fun p => decide (s.nameOf p = name) :=
              List.find?_cons_of_neg (p := fun p => decide (s.nameOf p = name))
                fun h => hname (of_decide_eq_true h)
            rw [if_neg hname, htail]
            exact ih hrest (fun q hq => hlive q (List.mem_cons_of_mem p hq))
              (Nat.le_of_succ_le_succ hn)

theorem Listed.findChild (h : s.Listed kids) (hd : d ∈ s.live) (name : List Char) :
    s.findChild name s.live.card (s.dirents d).child =
      some ((kids d).find? fun p => decide (s.nameOf p = name)) :=
  findChild_eq (h.list d hd).chain (fun p hp => (h.entry d hd p hp).1) (h.length_le hd)

/-- A walk to an entry is along the names of entries. -/
theorem Listed.leads (h : s.Listed kids) {notDir : Int} (hat : at_ ∈ s.live)
    (hwalk : s.walkNames notDir names at_ = some (.ok p)) :
    LabelPath kids s.nameOf at_ names p := by
  induction names generalizing at_ with
  | nil => exact (Except.ok.inj (Option.some.inj hwalk)).symm
  | cons name rest ih =>
      rw [Ramfs.walkNames] at hwalk
      split at hwalk
      next => cases hwalk
      next =>
        rw [get_of_mem hat, Option.bind_eq_bind, Option.bind_some] at hwalk
        split at hwalk
        next => cases hwalk
        next =>
          rw [h.findChild hat, Option.bind_eq_bind, Option.bind_some] at hwalk
          cases hfound : (kids at_).find? fun p => decide (s.nameOf p = name) with
          | none =>
              rw [hfound] at hwalk
              cases hwalk
          | some c =>
              rw [hfound] at hwalk
              have hmem := List.mem_of_find?_eq_some hfound
              exact ⟨c, hmem, of_decide_eq_true (List.find?_some hfound :),
                ih (h.entry at_ hat c hmem).1 hwalk⟩

theorem Tree.walkNames_of_leads (h : s.Tree kids) (notDir : Int) (hat : at_ ∈ s.live)
    (hleads : LabelPath kids s.nameOf at_ names p) :
    s.walkNames notDir names at_ = some (.ok p) := by
  induction names generalizing at_ with
  | nil =>
      obtain rfl : p = at_ := hleads
      rfl
  | cons name rest ih =>
      obtain ⟨c, hc, hname, hrest⟩ := hleads
      have hfits : ¬ 256 ≤ name.length := by
        rw [← hname]
        exact Nat.not_le.mpr (h.named at_ c hc).2
      have hdir : ¬ (s.dirents at_).type ≠ .dir := fun htype =>
        htype (h.dir at_ hat (List.ne_nil_of_mem hc))
      have hfound : ((kids at_).find? fun p => decide (s.nameOf p = name)) = some c := by
        cases hfind : (kids at_).find? fun p => decide (s.nameOf p = name) with
        | none => exact absurd (decide_eq_true hname) (List.find?_eq_none.mp hfind c hc)
        | some q =>
            have hq : s.nameOf q = name := of_decide_eq_true (List.find?_some hfind :)
            rw [List.inj_on_of_nodup_map (h.distinct at_) (List.mem_of_find?_eq_some hfind) hc
              (hq.trans hname.symm)]
      rw [Ramfs.walkNames, if_neg hfits, get_of_mem hat, Option.bind_eq_bind, Option.bind_some,
        if_neg hdir, h.findChild hat, Option.bind_eq_bind, Option.bind_some, hfound]
      exact ih (h.entry at_ hat c hc).1 hrest

/-- The names of a path lead to what it resolves to. -/
theorem Tree.getDirent_iff (h : s.Tree kids) {path : List Char} :
    s.getDirent path = some (.ok p) ↔ LabelPath kids s.nameOf s.root (pathNames path) p :=
  ⟨h.toListed.leads h.root, h.walkNames_of_leads eNoent h.root⟩

theorem Tree.sub (h : s.Tree kids) {kids' : Nat → List Nat} (hlisted : s'.Listed kids')
    (hsub : ∀ d, (kids' d).Sublist (kids d))
    (hname : ∀ d, ∀ p ∈ kids' d, s'.nameOf p = s.nameOf p)
    (hdead : ∀ d, d ∉ s'.live → kids' d = []) : s'.Tree kids' where
  toListed := hlisted
  named d p hp := by
    rw [hname d p hp]
    exact h.named d p ((hsub d).subset hp)
  distinct d := by
    rw [List.map_congr_left (hname d)]
    exact (h.distinct d).sublist ((hsub d).map s.nameOf)
  dead := hdead

theorem SameLinks.tree (hlinks : SameLinks s s') (h : s.Tree kids)
    (hname : ∀ p, s'.nameOf p = s.nameOf p) : s'.Tree kids := by
  refine h.sub (hlinks.listed h.toListed) (fun d => List.Sublist.refl _) (fun d p _ => hname p) ?_
  rw [hlinks.live]
  exact h.dead

theorem Tree.not_mem_erase (h : s.Tree kids) (p d : Nat) : p ∉ (kids d).erase p := by
  by_cases hd : d ∈ s.live
  · exact h.toListed.not_mem_erase hd
  · rw [h.dead d hd]
    exact List.not_mem_nil

theorem Tree.unlinked (h : s.Tree kids) {l r : List Nat} (hkids : kids d = l ++ p :: r) :
    (s.unlinked d p l r).Tree fun q => (kids q).erase p := by
  have hd : d ∈ s.live := h.live_of_mem (p := p) (by
    rw [hkids]
    exact List.mem_append_right l List.mem_cons_self)
  apply h.sub (h.toListed.unlinked hd hkids)
  · exact fun q => List.erase_sublist
  · exact fun q p' _ => rfl
  · intro q hq
    rw [h.dead q hq]
    rfl

theorem Tree.insertDirent (h : s.Tree kids) {new : Nat} (hnew : new ∉ s.live)
    {dirent : RamfsDirent} (hchild : dirent.child = none) :
    (s.insertDirent new dirent).Tree (Function.update kids new []) := by
  apply h.sub (h.toListed.insertDirent hnew hchild)
  · intro d
    by_cases hd : d = new
    · subst hd
      rw [Function.update_self]
      exact List.nil_sublist _
    · rw [Function.update_of_ne hd]
  · intro d p hp
    have hne : p ≠ new := by
      rintro rfl
      by_cases hd : d = p
      · subst hd
        rw [Function.update_self] at hp
        cases hp
      · rw [Function.update_of_ne hd] at hp
        exact hnew (h.entry d (h.live_of_mem hp) p hp).1
    exact congrArg RamfsDirent.name (Function.update_of_ne hne _ _)
  · intro d hd
    by_cases hdn : d = new
    · rw [hdn, Function.update_self]
    · rw [Function.update_of_ne hdn]
      exact h.dead d fun hlive => hd (Finset.mem_insert_of_mem hlive)

theorem Tree.erase (h : s.Tree kids) (hroot : p ≠ s.root) (hout : ∀ d, p ∉ kids d) :
    Tree { s with live := s.live.erase p } (Function.update kids p []) := by
  have hlisted := h.toListed.erase hroot fun d _ => hout d
  have hsame : ∀ d ∈ s.live.erase p, Function.update kids p [] d = kids d := fun d hd =>
    Function.update_of_ne (Finset.ne_of_mem_erase hd) _ _
  apply h.sub
  · refine ⟨hlisted.root, hlisted.rootDir, fun d hd => ?_, fun d hd q hq => ?_, fun d hd hne => ?_⟩
    · rw [hsame d hd]
      exact hlisted.list d hd
    · rw [hsame d hd] at hq
      exact hlisted.entry d hd q hq
    · rw [hsame d hd] at hne
      exact hlisted.dir d hd hne
  · intro d
    by_cases hd : d = p
    · subst hd
      rw [Function.update_self]
      exact List.nil_sublist _
    · rw [Function.update_of_ne hd]
  · exact fun d q _ => rfl
  · intro d hd
    by_cases hdp : d = p
    · rw [hdp, Function.update_self]
    · rw [Function.update_of_ne hdp]
      exact h.dead d fun hlive => hd (Finset.mem_erase.mpr ⟨hdp, hlive⟩)

/-- An entry with a name that is new to a directory is put into it. -/
theorem Tree.linked (h : s.Tree kids) (hd : d ∈ s.live) (hp : p ∈ s.live) (hne : d ≠ p)
    (hdir : (s.dirents d).type = .dir) (hroot : p ≠ s.root) (hout : ∀ d, p ∉ kids d)
    (hname : IsName (s.nameOf p) ∧ (s.nameOf p).length < 256)
    (hfresh : ∀ q ∈ kids d, s.nameOf q ≠ s.nameOf p) :
    (s.linked d p).Tree (Function.update (Function.update kids p []) d (p :: kids d)) where
  toListed := h.toListed.linked hd hp hne hdir hroot fun d _ => hout d
  named q a ha := by
    change IsName (s.nameOf a) ∧ (s.nameOf a).length < 256
    by_cases hqd : q = d
    · subst hqd
      rw [Function.update_self] at ha
      rcases List.mem_cons.mp ha with rfl | ha
      · exact hname
      · exact h.named q a ha
    · rw [Function.update_of_ne hqd] at ha
      by_cases hqp : q = p
      · subst hqp
        rw [Function.update_self] at ha
        cases ha
      · rw [Function.update_of_ne hqp] at ha
        exact h.named q a ha
  distinct q := by
    change (List.map s.nameOf _).Nodup
    by_cases hqd : q = d
    · subst hqd
      rw [Function.update_self, List.map_cons, List.nodup_cons]
      refine ⟨fun hmem => ?_, h.distinct q⟩
      obtain ⟨a, ha, heq⟩ := List.mem_map.mp hmem
      exact hfresh a ha heq
    · rw [Function.update_of_ne hqd]
      by_cases hqp : q = p
      · subst hqp
        rw [Function.update_self]
        exact List.nodup_nil
      · rw [Function.update_of_ne hqp]
        exact h.distinct q
  dead q hq := by
    have hqd : q ≠ d := fun heq => hq (heq ▸ hd)
    have hqp : q ≠ p := fun heq => hq (heq ▸ hp)
    rw [Function.update_of_ne hqd, Function.update_of_ne hqp]
    exact h.dead q hq

theorem mount_tree (root : Nat) (readOnly : Bool) :
    (ramfsMount root readOnly).Tree fun _ => [] where
  toListed := (RamfsFiles.mount_valid root readOnly).listed
  named _ _ hp := absurd hp List.not_mem_nil
  distinct _ := List.nodup_nil
  dead _ _ := rfl

variable {new : Nat} {path : List Char} {res : Int}

/-- A new entry is in no directory yet, and nothing is found through it. -/
theorem Tree.insertNew (h : s.Tree kids) (hnew : new ∉ s.live) {dirent : RamfsDirent}
    (hchild : dirent.child = none) :
    (s.insertDirent new dirent).Tree kids ∧ (∀ d, new ∉ kids d) ∧
      ∀ path p, (s.insertDirent new dirent).getDirent path = some (.ok p) ↔
        s.getDirent path = some (.ok p) := by
  have hout : ∀ d, new ∉ kids d := fun d hmem =>
    hnew (h.entry d (h.live_of_mem hmem) new hmem).1
  have hsame : Function.update kids new [] = kids := by
    rw [← h.dead new hnew, Function.update_eq_self]
  have htree := h.insertDirent hnew hchild
  rw [hsame] at htree
  have hnames : ∀ d, ∀ p ∈ kids d, (s.insertDirent new dirent).nameOf p = s.nameOf p := by
    intro d p hp
    have hne : p ≠ new := fun heq => hout d (heq ▸ hp)
    exact congrArg RamfsDirent.name (Function.update_of_ne hne _ _)
  refine ⟨htree, hout, fun path p => ?_⟩
  rw [htree.getDirent_iff, h.getDirent_iff]
  constructor
  · intro hleads
    exact hleads.mono (fun d => List.Subset.refl _) fun d p hp => (hnames d p hp).symm
  · intro hleads
    exact hleads.mono (fun d => List.Subset.refl _) hnames

/-- A new entry is left in no directory, or becomes the first of the directory of its path. -/
theorem Tree.create (h : s.Tree kids) (hwritable : s.readOnly = false) (hnew : new ∉ s.live)
    (hfits : RamfsFiles.FitsParts path) (hmissing : s.getDirent path = some (.error res))
    (type : DirentType) (device : Nat) :
    (∃ res < 0, s.create new path type device =
        some (res, s.insertDirent new (newDirent (filenameOf path) type device)) ∧
      ¬ ∃ d, s.getDirent (dirnameOf path) = some (.ok d) ∧ (s.dirents d).type = .dir) ∨
    ∃ d kids', s.getDirent (dirnameOf path) = some (.ok d) ∧ s.create new path type device =
        some (0, (s.insertDirent new (newDirent (filenameOf path) type device)).linked d new) ∧
      ((s.insertDirent new (newDirent (filenameOf path) type device)).linked d new).Tree kids' := by
  have hmissing' : ∀ p, ¬ s.getDirent path = some (.ok p) := by
    intro p hp
    cases hmissing.symm.trans hp
  have hnamed : filenameOf path ≠ [] := by
    intro hnil
    apply hmissing' s.root
    rw [h.getDirent_iff, pathNames_of_no_name hnil]
    rfl
  have hro : ¬ s.readOnly = true := by
    rw [hwritable]
    exact Bool.false_ne_true
  have hparts : ¬ (256 ≤ (dirnameOf path).length ∨ 256 ≤ (filenameOf path).length) := by
    rw [not_or, Nat.not_le, Nat.not_le]
    exact hfits
  rw [Ramfs.create, if_neg hro, hmissing, Option.bind_eq_bind, Option.bind_some]
  dsimp only
  rw [if_neg hparts]
  obtain ⟨htree, hout, hfound⟩ := h.insertNew hnew
    (rfl : (newDirent (filenameOf path) type device).child = none)
  have hroot : new ≠ s.root := fun heq => hnew (heq ▸ h.root)
  have hname : (s.insertDirent new (newDirent (filenameOf path) type device)).nameOf new =
      filenameOf path := by
    have hself : (s.insertDirent new (newDirent (filenameOf path) type device)).dirents new =
      newDirent (filenameOf path) type device := Function.update_self ..
    rw [nameOf, hself]
    exact List.take_of_length_le (Nat.le_of_lt_succ hfits.2)
  rcases htree.toListed.addDirent hwritable (RamfsFiles.fitsNames_dirname hfits.1)
    (Finset.mem_insert_self ..) hroot fun d _ => hout d with
    ⟨res, hneg, hadd, hlost⟩ | ⟨d, hd, hne, hdir, hdirFound, hadd⟩
  · refine .inl ⟨res, hneg, hadd, ?_⟩
    rintro ⟨d, hd, hdir⟩
    have hne : d ≠ new := fun heq =>
      hnew (heq ▸ h.toListed.mem_live (h.toListed.inTree_of_getDirent hd))
    refine hlost ⟨d, (hfound _ _).mpr hd, ?_⟩
    exact (congrArg RamfsDirent.type (Function.update_of_ne hne _ _)).trans hdir
  · refine .inr ⟨d, _, (hfound _ _).mp hdirFound, hadd,
      htree.linked hd (Finset.mem_insert_self ..) hne hdir hroot hout ?_ ?_⟩
    · rw [hname]
      exact ⟨isName_filenameOf hnamed, hfits.2⟩
    · intro q hq hsame
      -- the path would lead to the entry with its name
      apply hmissing' q
      rw [← hfound, htree.getDirent_iff, pathNames_eq hnamed]
      exact LabelPath.snoc_iff.mpr ⟨d, htree.getDirent_iff.mp hdirFound, hq, hsame.trans hname⟩

end Ramfs

end GlitchedOS
