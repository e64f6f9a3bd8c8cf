/-
Which entries of a ramfs are alive.  The entries of each directory form a doubly
linked list and know their directory, and an open entry is in such a list.  This
lasts as long as no directory is freed, or moved, while an entry in it is open or
only hidden by its deletion.
-/
import GlitchedOS.Fs.Ramfs
import GlitchedOS.Lib.Doubly
import GlitchedOS.Lib.Run

namespace GlitchedOS

namespace Ramfs

variable {s s' : Ramfs} {kids : Nat → List Nat}
variable {p d new : Nat} {path : List Char} {names : List (List Char)}

/-- `kids` are the entries of each directory, in the order of its list. -/
structure Listed (s : Ramfs) (kids : Nat → List Nat) : Prop where
  root : s.root ∈ s.live
  rootDir : (s.dirents s.root).type = .dir
  list : ∀ d ∈ s.live, Doubly (fun p => (s.dirents p).next) (fun p => (s.dirents p).previous)
    none (s.dirents d).child (kids d)
  entry : ∀ d ∈ s.live, ∀ p ∈ kids d,
    p ∈ s.live ∧ p ≠ s.root ∧ (s.dirents p).parent = some d
  dir : ∀ d ∈ s.live, kids d ≠ [] → (s.dirents d).type = .dir

theorem get_of_mem (hp : p ∈ s.live) : s.get p = some (s.dirents p) :=
  if_pos hp

theorem modify_of_mem (hp : p ∈ s.live) (f : RamfsDirent → RamfsDirent) :
    s.modify p f = some (s.setDirent p f) :=
  if_pos hp

theorem setDirent_self (p : Nat) (f : RamfsDirent → RamfsDirent) :
    (s.setDirent p f).dirents p = f (s.dirents p) :=
  if_pos rfl

theorem setDirent_ne {q : Nat} (hq : q ≠ p) (f : RamfsDirent → RamfsDirent) :
    (s.setDirent p f).dirents q = s.dirents q :=
  if_neg hq

theorem modifyAt_of_mem {p : Option Nat} (hp : ∀ q, p = some q → q ∈ s.live)
    (f : RamfsDirent → RamfsDirent) :
    s.modifyAt p f = some { s with
      dirents := fun q => if p = some q then f (s.dirents q) else s.dirents q } := by
  cases p with
  | none => simp [modifyAt]
  | some p => simp [modifyAt, modify_of_mem (hp p rfl), setDirent, eq_comm]

/-- The pointers and types of the live entries are the same. -/
structure SameLinks (s s' : Ramfs) : Prop where
  live : s'.live = s.live
  root : s'.root = s.root
  readOnly : s'.readOnly = s.readOnly
  links : ∀ p, (s'.dirents p).previous = (s.dirents p).previous ∧
    (s'.dirents p).next = (s.dirents p).next ∧ (s'.dirents p).parent = (s.dirents p).parent ∧
    (s'.dirents p).child = (s.dirents p).child ∧ (s'.dirents p).type = (s.dirents p).type

theorem SameLinks.listed (h : SameLinks s s') (hlisted : s.Listed kids) : s'.Listed kids where
  root := by rw [h.live, h.root]; exact hlisted.root
  rootDir := by rw [h.root, (h.links _).2.2.2.2]; exact hlisted.rootDir
  list d hd := by
    rw [h.live] at hd
    rw [(h.links d).2.2.2.1]
    exact (hlisted.list d hd).congr (fun p _ => (h.links p).2.1) (fun p _ => (h.links p).1)
  entry d hd p hp := by
    rw [h.live] at hd ⊢
    rw [h.root, (h.links p).2.2.1]
    exact hlisted.entry d hd p hp
  dir d hd hkids := by
    rw [h.live] at hd
    rw [(h.links d).2.2.2.2]
    exact hlisted.dir d hd hkids

/-- A change of an entry that leaves its pointers and its type alone. -/
theorem sameLinks_setDirent (s : Ramfs) (p : Nat) {f : RamfsDirent → RamfsDirent}
    (hf : ∀ d, (f d).previous = d.previous ∧ (f d).next = d.next ∧ (f d).parent = d.parent ∧
      (f d).child = d.child ∧ (f d).type = d.type) : SameLinks s (s.setDirent p f) where
  live := rfl
  root := rfl
  readOnly := rfl
  links q := by
    by_cases hq : q = p
    · rw [hq, setDirent_self]
      exact hf _
    · rw [setDirent_ne hq]
      exact ⟨rfl, rfl, rfl, rfl, rfl⟩

/-- An entry is the root or stands in the list of a directory. -/
def InTree (s : Ramfs) (kids : Nat → List Nat) (p : Nat) : Prop :=
  p = s.root ∨ ∃ d ∈ s.live, p ∈ kids d

theorem Listed.mem_live (h : s.Listed kids) (hp : s.InTree kids p) : p ∈ s.live := by
  rcases hp with rfl | ⟨d, hd, hp⟩
  · exact h.root
  · exact (h.entry d hd p hp).1

theorem Listed.length_le (h : s.Listed kids) (hd : d ∈ s.live) :
    (kids d).length ≤ s.live.card := by
  rw [← List.toFinset_card_of_nodup (h.list d hd).nodup]
  exact Finset.card_le_card fun p hp => (h.entry d hd p (List.mem_toFinset.mp hp)).1

theorem findChild_spec (name : List Char) {start : Option Nat} {l : List Nat} {n : Nat}
    (h : Chain (fun p => (s.dirents p).next) start l) (hlive : ∀ p ∈ l, p ∈ s.live)
    (hn : l.length ≤ n) :
    ∃ found, s.findChild name n start = some found ∧ ∀ p, found = some p → p ∈ l := by
  induction l generalizing start n with
  | nil =>
      obtain rfl : start = none := h
      exact ⟨none, by cases n <;> rfl, fun p hp => nomatch hp⟩
  | cons p rest ih =>
      obtain ⟨rfl, hrest⟩ := h
      cases n with
      | zero => simp at hn
      | succ n =>
          have hp := hlive p List.mem_cons_self
          by_cases hname : (s.dirents p).name = name
          · exact ⟨some p, by simp [findChild, get_of_mem hp, hname], by simp⟩
          · obtain ⟨found, hfound, hmem⟩ := ih hrest
              (fun q hq => hlive q (List.mem_cons_of_mem p hq)) (Nat.le_of_succ_le_succ hn)
            refine ⟨found, by simp [findChild, get_of_mem hp, hname, hfound], ?_⟩
            exact fun q hq => List.mem_cons_of_mem p (hmem q hq)

/-- A walk along names that fit their buffer comes to an end, in the tree. -/
theorem Listed.walkNames (h : s.Listed kids) (notDir : Int) {at_ : Nat}
    (hfits : ∀ name ∈ names, name.length < 256) (hat : s.InTree kids at_) :
    ∃ found, s.walkNames notDir names at_ = some found ∧
      ∀ p, found = .ok p → s.InTree kids p := by
  induction names generalizing at_ with
  | nil => exact ⟨.ok at_, rfl, fun p hp => Except.ok.inj hp ▸ hat⟩
  | cons name rest ih =>
      have hlive := h.mem_live hat
      have hname := hfits name List.mem_cons_self
      by_cases hdir : (s.dirents at_).type = .dir
      · obtain ⟨found, hfound, hmem⟩ := findChild_spec name (h.list at_ hlive).chain
          (fun p hp => (h.entry at_ hlive p hp).1) (h.length_le hlive)
        cases found with
        | none =>
            refine ⟨.error eNoent, ?_, fun p hp => nomatch hp⟩
            simp [Ramfs.walkNames, get_of_mem hlive, hdir, hfound, hname]
        | some p =>
            obtain ⟨found, hwalk, htree⟩ := ih
              (fun name hname => hfits name (List.mem_cons_of_mem _ hname))
              (.inr ⟨at_, hlive, hmem p rfl⟩)
            refine ⟨found, ?_, htree⟩
            simp [Ramfs.walkNames, get_of_mem hlive, hdir, hfound, hname, hwalk]
      · refine ⟨.error notDir, ?_, fun p hp => nomatch hp⟩
        simp [Ramfs.walkNames, get_of_mem hlive, hdir, hname]

/-- Which error stands for a name in a file does not matter for what is found. -/
theorem walkNames_ok_congr {notDir notDir' : Int} {at_ : Nat}
    (h : s.walkNames notDir names at_ = some (.ok p)) :
    s.walkNames notDir' names at_ = some (.ok p) := by
  induction names generalizing at_ with
  | nil => exact h
  | cons name rest ih =>
      rw [Ramfs.walkNames] at h ⊢
      by_cases hlong : 256 ≤ name.length
      · rw [if_pos hlong] at h
        cases h
      · rw [if_neg hlong] at h ⊢
        cases hget : s.get at_ with
        | none => simp [hget] at h
        | some dirent =>
            by_cases hdir : dirent.type = .dir
            · cases hfind : s.findChild name s.live.card dirent.child with
              | none => simp [hget, hdir, hfind] at h
              | some found =>
                  cases found with
                  | none => simp [hget, hdir, hfind] at h
                  | some q =>
                      simpa [hget, hdir, hfind] using ih (by simpa [hget, hdir, hfind] using h)
            · simp [hget, hdir] at h

/-- The names of a path fit their buffer. -/
def FitsNames (path : List Char) : Prop :=
  ∀ name ∈ pathNames path, name.length < 256

theorem Listed.lookupPath (h : s.Listed kids) (hfits : FitsNames path) :
    ∃ found, s.lookupPath path = some found ∧ ∀ p, found = .ok p → s.InTree kids p :=
  h.walkNames eNotdir hfits (.inl rfl)

theorem Listed.getDirent (h : s.Listed kids) (hfits : FitsNames path) :
    ∃ found, s.getDirent path = some found ∧ ∀ p, found = .ok p → s.InTree kids p :=
  h.walkNames eNoent hfits (.inl rfl)

theorem walkNames_error_neg {notDir res : Int} (hneg : notDir < 0)
    {at_ : Nat} (h : s.walkNames notDir names at_ = some (.error res)) : res < 0 := by
  induction names generalizing at_ with
  | nil => cases h
  | cons name rest ih =>
      rw [Ramfs.walkNames] at h
      split at h
      next => cases h
      next =>
        obtain ⟨dirent, -, h⟩ := Option.bind_eq_some_iff.mp h
        split at h
        next =>
          cases h
          exact hneg
        next =>
          obtain ⟨found, -, h⟩ := Option.bind_eq_some_iff.mp h
          cases found with
          | none =>
              cases h
              decide
          | some q => exact ih h

theorem fits_of_walkNames {notDir : Int} {at_ : Nat}
    (h : s.walkNames notDir names at_ = some (.ok p)) : ∀ name ∈ names, name.length < 256 := by
  induction names generalizing at_ with
  | nil => exact fun name hname => nomatch hname
  | cons name rest ih =>
      rw [Ramfs.walkNames] at h
      split at h
      next => cases h
      next hfits =>
        obtain ⟨dirent, -, h⟩ := Option.bind_eq_some_iff.mp h
        split at h
        next => cases h
        next =>
          obtain ⟨found, -, h⟩ := Option.bind_eq_some_iff.mp h
          cases found with
          | none => cases h
          | some q => exact List.forall_mem_cons.mpr ⟨Nat.lt_of_not_le hfits, ih h⟩

theorem Listed.inTree_of_getDirent (h : s.Listed kids)
    (hpath : s.getDirent path = some (.ok p)) : s.InTree kids p := by
  obtain ⟨found, hfound, htree⟩ := h.getDirent (fits_of_walkNames hpath)
  exact htree p (Option.some.inj (hfound.symm.trans hpath))

theorem length_le_of_mem_pathNames {name : List Char} (h : name ∈ pathNames path) :
    name.length ≤ path.length :=
  (splitOn_component path name (List.mem_of_mem_filter h)).2.length_le

theorem fitsNames_of_length (h : path.length < 256) : FitsNames path :=
  fun _ hname => Nat.lt_of_le_of_lt (length_le_of_mem_pathNames hname) h

theorem nthVisible_spec {start : Option Nat} {l : List Nat} {n : Nat} (index : Nat)
    (h : Chain (fun p => (s.dirents p).next) start l) (hlive : ∀ p ∈ l, p ∈ s.live)
    (hn : l.length ≤ n) : ∃ found, s.nthVisible n start index = some found := by
  induction l generalizing start n index with
  | nil =>
      obtain rfl : start = none := h
      exact ⟨none, by cases n <;> rfl⟩
  | cons p rest ih =>
      obtain ⟨rfl, hrest⟩ := h
      cases n with
      | zero => simp at hn
      | succ n =>
          have hp := hlive p List.mem_cons_self
          have htail := fun index => ih index hrest
            (fun q hq => hlive q (List.mem_cons_of_mem p hq)) (Nat.le_of_succ_le_succ hn)
          by_cases hhidden : (s.dirents p).toDelete = true
          · obtain ⟨found, hfound⟩ := htail index
            exact ⟨found, by simp [nthVisible, get_of_mem hp, hhidden, hfound]⟩
          · cases index with
            | zero => exact ⟨some (s.dirents p), by simp [nthVisible, get_of_mem hp, hhidden]⟩
            | succ index =>
                obtain ⟨found, hfound⟩ := htail index
                exact ⟨found, by simp [nthVisible, get_of_mem hp, hhidden, hfound]⟩

theorem Listed.readdir (h : s.Listed kids) (hp : p ∈ s.live) (index : Nat) :
    ∃ res, s.readdir p index = some res := by
  by_cases hdir : (s.dirents p).type = .dir
  · obtain ⟨found, hfound⟩ := nthVisible_spec index (h.list p hp).chain
      (fun q hq => (h.entry p hp q hq).1) (h.length_le hp)
    cases found with
    | none => exact ⟨.error 0, by simp [Ramfs.readdir, get_of_mem hp, hdir, hfound]⟩
    | some dirent =>
        exact ⟨.ok (dirent.name, dirent.type), by
          simp [Ramfs.readdir, get_of_mem hp, hdir, hfound]⟩
  · exact ⟨.error eNotdir, by simp [Ramfs.readdir, get_of_mem hp, hdir]⟩

/-- The mount without `p`, which stood between `l` and `r` in the list of `d`. -/
def unlinked (s : Ramfs) (d p : Nat) (l r : List Nat) : Ramfs :=
  { s with dirents := fun q => { s.dirents q with
      next := if l.getLast? = some q then (s.dirents p).next else (s.dirents q).next
      previous := if r.head? = some q then (s.dirents p).previous else (s.dirents q).previous
      child := if q = d ∧ l = [] then (s.dirents p).next else (s.dirents q).child } }

theorem Listed.unlink (h : s.Listed kids) {l r : List Nat} (hd : d ∈ s.live)
    (hkids : kids d = l ++ p :: r) : s.unlink p = some (s.unlinked d p l r) := by
  have hlist := h.list d hd
  rw [hkids] at hlist
  have hmem : ∀ q ∈ l ++ p :: r, q ∈ s.live := fun q hq => (h.entry d hd q (hkids ▸ hq)).1
  have hparent := (h.entry d hd p (by simp [hkids])).2.2
  obtain ⟨hprevious, hnext⟩ := hlist.neighbours
  have hp := hmem p (by simp)
  have hchild : (s.dirents d).child = some p ↔ l = [] := by
    rw [hlist.start_eq]
    cases l with
    | nil => simp
    | cons a l =>
        have hne : a ≠ p := by
          have hnodup := hlist.nodup
          rw [List.cons_append, List.nodup_cons] at hnodup
          exact fun heq => hnodup.1 (by simp [heq])
        simp [hne]
  have hbefore : ∀ q, (s.dirents p).previous = some q → q ∈ s.live := fun q hq =>
    hmem q (List.mem_append_left _ (List.mem_of_getLast? (hprevious ▸ hq)))
  have hafter : ∀ q, (s.dirents p).next = some q → q ∈ s.live := fun q hq =>
    hmem q (by simp [List.mem_of_mem_head? (Option.mem_def.mpr (hnext ▸ hq))])
  have hfirst : ∀ q, (if (s.dirents d).child = some p then some d else none) = some q →
      q ∈ s.live := by
    intro q hq
    split at hq
    · exact Option.some.inj hq ▸ hd
    · cases hq
  simp only [Ramfs.unlink, get_of_mem hp, Option.bind_eq_bind, Option.bind_some,
    modifyAt_of_mem hbefore, hparent]
  simp only [get, if_pos hd, Option.bind_some, apply_ite RamfsDirent.child, ite_self]
  rw [modifyAt_of_mem (by exact hfirst), Option.bind_some, modifyAt_of_mem (by exact hafter)]
  simp only [unlinked, Option.some.injEq, Ramfs.mk.injEq, and_true, hchild]
  funext q
  rw [← hprevious, ← hnext]
  have hdir : ((if l = [] then some d else none) = some q) ↔ q = d ∧ l = [] := by
    by_cases hl : l = [] <;> simp [hl, eq_comm]
  simp only [hdir]
  split_ifs <;> rfl

/-- The directory of an entry is the only one that lists it. -/
theorem Listed.not_mem (h : s.Listed kids) {d' : Nat} (hd : d ∈ s.live) (hp : p ∈ kids d)
    (hd' : d' ∈ s.live) (hne : d' ≠ d) : p ∉ kids d' := by
  intro hp'
  have heq := (h.entry d hd p hp).2.2.symm.trans (h.entry d' hd' p hp').2.2
  exact hne (Option.some.inj heq).symm

theorem Listed.unlinked (h : s.Listed kids) {l r : List Nat} (hd : d ∈ s.live)
    (hkids : kids d = l ++ p :: r) :
    (s.unlinked d p l r).Listed (fun q => (kids q).erase p) where
  root := h.root
  rootDir := h.rootDir
  list q hq := by
    by_cases hqd : q = d
    · subst hqd
      have hlist := h.list q hq
      rw [hkids] at hlist
      have hp : p ∉ l := fun hmem => (hlist.chain.ne_of_split.1 p hmem) rfl
      rw [hkids, List.erase_append_right _ hp, List.erase_cons_head]
      have hnew := hlist.remove (fun b _ => rfl) (fun b _ => rfl)
      simpa [Ramfs.unlinked] using hnew
    · have hother : ∀ a ∈ l ++ p :: r, a ∉ kids q := fun a ha =>
        h.not_mem hd (hkids ▸ ha) hq hqd
      rw [List.erase_of_not_mem (hother p (by simp))]
      have hlast : ∀ a ∈ kids q, l.getLast? ≠ some a := fun a ha hlast =>
        hother a (List.mem_append_left _ (List.mem_of_getLast? hlast)) ha
      have hhead : ∀ a ∈ kids q, r.head? ≠ some a := fun a ha hhead =>
        hother a (by simp [List.mem_of_mem_head? (Option.mem_def.mpr hhead)]) ha
      have hchild : ((s.unlinked d p l r).dirents q).child = (s.dirents q).child :=
        if_neg fun hboth => hqd hboth.1
      rw [hchild]
      exact (h.list q hq).congr (fun a ha => if_neg (hlast a ha)) fun a ha => if_neg (hhead a ha)
  entry q hq a ha := h.entry q hq a (List.mem_of_mem_erase ha)
  dir q hq hne := h.dir q hq fun hnil => hne (by rw [hnil]; rfl)

/-- An entry without entries is freed once it is in no list. -/
theorem Listed.erase (h : s.Listed kids) (hroot : p ≠ s.root)
    (hout : ∀ d ∈ s.live, p ∉ kids d) : Listed { s with live := s.live.erase p } kids where
  root := Finset.mem_erase.mpr ⟨hroot.symm, h.root⟩
  rootDir := h.rootDir
  list d hd := h.list d (Finset.mem_of_mem_erase hd)
  entry d hd q hq := by
    obtain ⟨hlive, hrest⟩ := h.entry d (Finset.mem_of_mem_erase hd) q hq
    refine ⟨Finset.mem_erase.mpr ⟨?_, hlive⟩, hrest⟩
    exact fun heq => hout d (Finset.mem_of_mem_erase hd) (heq ▸ hq)
  dir d hd := h.dir d (Finset.mem_of_mem_erase hd)

theorem Listed.not_mem_erase (h : s.Listed kids) (hd : d ∈ s.live) :
    p ∉ (kids d).erase p :=
  (h.list d hd).nodup.not_mem_erase

theorem Listed.insertDirent (h : s.Listed kids) (hnew : new ∉ s.live)
    {dirent : RamfsDirent} (hchild : dirent.child = none) :
    (s.insertDirent new dirent).Listed (Function.update kids new []) := by
  have hne : ∀ p ∈ s.live, p ≠ new := fun p hp heq => hnew (heq ▸ hp)
  have hold : ∀ p ∈ s.live, (s.insertDirent new dirent).dirents p = s.dirents p := fun p hp =>
    Function.update_of_ne (hne p hp) _ _
  have hkids : ∀ d ∈ s.live, Function.update kids new [] d = kids d := fun d hd =>
    Function.update_of_ne (hne d hd) _ _
  have hcases : ∀ d ∈ insert new s.live, d = new ∨ d ∈ s.live := fun d hd =>
    Finset.mem_insert.mp hd
  refine ⟨Finset.mem_insert_of_mem h.root, ?_, ?_, ?_, ?_⟩
  · show ((s.insertDirent new dirent).dirents s.root).type = .dir
    rw [hold s.root h.root]
    exact h.rootDir
  · intro d hd
    rcases hcases d hd with rfl | hd
    · rw [Function.update_self]
      simpa [Ramfs.insertDirent, Doubly] using hchild
    · rw [hold d hd, hkids d hd]
      have hsame : ∀ a ∈ kids d, (s.insertDirent new dirent).dirents a = s.dirents a := fun a ha =>
        hold a (h.entry d hd a ha).1
      exact (h.list d hd).congr (fun a ha => by rw [hsame a ha]) fun a ha => by rw [hsame a ha]
  · intro d hd p hp
    rcases hcases d hd with rfl | hd
    · simp at hp
    · rw [hkids d hd] at hp
      obtain ⟨hlive, hroot, hparent⟩ := h.entry d hd p hp
      exact ⟨Finset.mem_insert_of_mem hlive, hroot, by rwa [hold p hlive]⟩
  · intro d hd hne
    rcases hcases d hd with rfl | hd
    · simp at hne
    · rw [hkids d hd] at hne
      rw [hold d hd]
      exact h.dir d hd hne

/-- The mount with `p` as the first entry of `d`. -/
def linked (s : Ramfs) (d p : Nat) : Ramfs :=
  { s with dirents := fun q => { s.dirents q with
      next := if q = p then (s.dirents d).child else (s.dirents q).next
      previous := if q = p then none
        else if (s.dirents d).child = some q then some p else (s.dirents q).previous
      parent := if q = p then some d else (s.dirents q).parent
      child := if q = p then none else if q = d then some p else (s.dirents q).child } }

theorem Listed.addDirent (h : s.Listed kids) (hrw : s.readOnly = false)
    (hfits : FitsNames path) (hp : p ∈ s.live) (hroot : p ≠ s.root)
    (hout : ∀ d ∈ s.live, p ∉ kids d) :
    (∃ res < 0, s.addDirent path p = some (res, s) ∧ ¬ ∃ d, s.getDirent path = some (.ok d) ∧
      (s.dirents d).type = .dir) ∨
    ∃ d ∈ s.live, d ≠ p ∧ (s.dirents d).type = .dir ∧
      s.getDirent path = some (.ok d) ∧ s.addDirent path p = some (0, s.linked d p) := by
  obtain ⟨found, hfound, htree⟩ := h.getDirent hfits
  cases found with
  | error res =>
      refine .inl ⟨res, walkNames_error_neg (by decide) hfound,
        by simp [Ramfs.addDirent, hrw, hfound], ?_⟩
      rintro ⟨d, hd, -⟩
      rw [hfound] at hd
      cases hd
  | ok d =>
      have hd := h.mem_live (htree d rfl)
      have hne : d ≠ p := by
        rintro rfl
        rcases htree d rfl with heq | ⟨q, hq, hmem⟩
        · exact hroot heq
        · exact hout q hq hmem
      by_cases hdir : (s.dirents d).type = .dir
      · refine .inr ⟨d, hd, hne, hdir, hfound, ?_⟩
        have hfirst : ∀ q, (s.dirents d).child = some q → q ∈ s.live := by
          intro q hq
          have hmem := List.mem_of_mem_head? (Option.mem_def.mpr ((h.list d hd).start_eq ▸ hq))
          exact (h.entry d hd q hmem).1
        rw [Ramfs.addDirent, if_neg (by simp [hrw])]
        simp only [hfound, get_of_mem hd, hdir, Option.bind_eq_bind, Option.bind_some, ne_eq,
          not_true, if_false, modify_of_mem hp]
        rw [modify_of_mem (by exact hd), Option.bind_some, modifyAt_of_mem (by exact hfirst),
          Option.bind_some, modify_of_mem (by exact hp), Option.bind_some]
        simp only [linked, setDirent, Option.some.injEq, Prod.mk.injEq, true_and, Ramfs.mk.injEq,
          and_true]
        funext q
        by_cases hqp : q = p
        · subst hqp
          simp only [if_true, if_neg hne.symm]
          split_ifs <;> rfl
        · by_cases hqd : q = d
          · subst hqd
            simp only [hqp, if_false, if_true]
            split_ifs <;> rfl
          · simp only [hqp, hqd, if_false]
            split_ifs <;> rfl
      · refine .inl ⟨eNotdir, by decide,
          by simp [Ramfs.addDirent, hrw, hfound, get_of_mem hd, hdir], ?_⟩
        rintro ⟨d', hd', hdir'⟩
        obtain rfl := Except.ok.inj (Option.some.inj (hfound.symm.trans hd'))
        exact hdir hdir'

theorem Listed.linked (h : s.Listed kids) (hd : d ∈ s.live) (hp : p ∈ s.live)
    (hne : d ≠ p) (hdir : (s.dirents d).type = .dir) (hroot : p ≠ s.root)
    (hout : ∀ d ∈ s.live, p ∉ kids d) :
    (s.linked d p).Listed
      (Function.update (Function.update kids p []) d (p :: kids d)) where
  root := h.root
  rootDir := h.rootDir
  list q hq := by
    by_cases hqd : q = d
    · subst hqd
      rw [Function.update_self]
      have hchild : ((s.linked q p).dirents q).child = some p := by simp [Ramfs.linked, hne]
      rw [hchild]
      apply (h.list q hq).push
      · simp [Ramfs.linked]
      · simp [Ramfs.linked]
      · intro b hb
        have hbp : b ≠ p := fun heq => hout q hq (heq ▸ hb)
        simp [Ramfs.linked, hbp]
      · intro b hb
        have hbp : b ≠ p := fun heq => hout q hq (heq ▸ hb)
        simp [Ramfs.linked, hbp]
    · rw [Function.update_of_ne hqd]
      by_cases hqp : q = p
      · subst hqp
        rw [Function.update_self]
        exact if_pos rfl
      · rw [Function.update_of_ne hqp]
        have hchild : ((s.linked d p).dirents q).child = (s.dirents q).child := by
          simp [Ramfs.linked, hqp, hqd]
        rw [hchild]
        have hother : ∀ a ∈ kids q, a ≠ p ∧ (s.dirents d).child ≠ some a := by
          refine fun a ha => ⟨fun heq => hout q hq (heq ▸ ha), fun hfirst => ?_⟩
          rw [(h.list d hd).start_eq] at hfirst
          exact h.not_mem hd (List.mem_of_mem_head? (Option.mem_def.mpr hfirst)) hq hqd ha
        apply (h.list q hq).congr
        · intro a ha
          simp [Ramfs.linked, hother a ha]
        · intro a ha
          simp [Ramfs.linked, hother a ha]
  entry q hq a ha := by
    by_cases hqd : q = d
    · subst hqd
      rw [Function.update_self, List.mem_cons] at ha
      by_cases hap : a = p
      · subst hap
        exact ⟨hp, hroot, if_pos rfl⟩
      · have hmem := h.entry q hq a (ha.resolve_left hap)
        exact ⟨hmem.1, hmem.2.1, by simpa [Ramfs.linked, hap] using hmem.2.2⟩
    · rw [Function.update_of_ne hqd] at ha
      by_cases hqp : q = p
      · simp [hqp] at ha
      · rw [Function.update_of_ne hqp] at ha
        have hmem := h.entry q hq a ha
        have hap : a ≠ p := fun heq => hout q hq (heq ▸ ha)
        exact ⟨hmem.1, hmem.2.1, by simpa [Ramfs.linked, hap] using hmem.2.2⟩
  dir q hq hkids := by
    by_cases hqd : q = d
    · subst hqd
      exact hdir
    · rw [Function.update_of_ne hqd] at hkids
      by_cases hqp : q = p
      · simp [hqp] at hkids
      · rw [Function.update_of_ne hqp] at hkids
        exact h.dir q hq hkids

theorem Listed.not_mem_new (h : s.Listed kids) (hnew : new ∉ s.live)
    (hd : d ∈ insert new s.live) : new ∉ Function.update kids new [] d := by
  rcases Finset.mem_insert.mp hd with rfl | hd
  · rw [Function.update_self]
    exact List.not_mem_nil
  · have hne : d ≠ new := fun heq => hnew (heq ▸ hd)
    rw [Function.update_of_ne hne]
    exact fun hmem => hnew (h.entry d hd new hmem).1

theorem Listed.addNew (h : s.Listed kids) (hrw : s.readOnly = false)
    (hnew : new ∉ s.live) {dirent : RamfsDirent} (hchild : dirent.child = none) (hfits : FitsNames path) :
    ∃ res fs kids', (s.insertDirent new dirent).addDirent path new = some (res, fs) ∧
      fs.Listed kids' ∧ fs.live = insert new s.live ∧ fs.root = s.root ∧ fs.readOnly = s.readOnly ∧
      ∀ q, (fs.dirents q).fileSize = ((s.insertDirent new dirent).dirents q).fileSize ∧
        (fs.dirents q).openCount = ((s.insertDirent new dirent).dirents q).openCount ∧
        (fs.dirents q).type = ((s.insertDirent new dirent).dirents q).type := by
  have hinserted := h.insertDirent hnew hchild
  have hroot : new ≠ s.root := fun heq => hnew (heq ▸ h.root)
  have hout : ∀ d ∈ (s.insertDirent new dirent).live, new ∉ Function.update kids new [] d :=
    fun d hd => h.not_mem_new hnew hd
  rcases hinserted.addDirent hrw hfits (Finset.mem_insert_self _ _) hroot hout with
    ⟨res, -, hadd, -⟩ | ⟨d, hd, hne, hdir, -, hadd⟩
  · exact ⟨res, _, _, hadd, hinserted, rfl, rfl, rfl, fun q => ⟨rfl, rfl, rfl⟩⟩
  · exact ⟨0, _, _, hadd, hinserted.linked hd (Finset.mem_insert_self _ _) hne hdir hroot hout, rfl,
      rfl, rfl, fun q => ⟨rfl, rfl, rfl⟩⟩

end Ramfs

end GlitchedOS
