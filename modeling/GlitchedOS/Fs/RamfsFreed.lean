/-
What a ramfs file leaves behind when it is deleted.  All memory that is given out belongs to
the entry it was given out for, and lies in the blocks of that entry, is the entry, or was
given back.  The deletion gives back as many blocks as it counts for the size of the file.
-/
import GlitchedOS.Fs.RamfsTruncation

namespace GlitchedOS

/-- A call that takes memory of a ramfs, or gives some back. -/
inductive RamfsMemoryOp where
  | createFile (path : List Char)
  | write (p : Nat) (buffer : List UInt8) (offset : Nat)
  | truncate (p newSize : Nat)

/-- A volume, and the entry for which each piece of memory was given out. -/
structure RamfsLedger where
  volume : RamfsVolume
  owner : Nat → Nat

namespace RamfsVolume

def memoryCall (v : RamfsVolume) : RamfsMemoryOp → Option (Int × RamfsVolume)
  | .createFile path => v.createFile path
  | .write p buffer offset => v.write 0 p buffer offset
  | .truncate p newSize => v.truncate p newSize

/-- The entry that a call takes memory for; a new entry is there for itself. -/
def memoryFor (v : RamfsVolume) : RamfsMemoryOp → Nat
  | .createFile _ => v.memory.given
  | .write p _ _ => p
  | .truncate p _ => p

/-- `ramfs_free_dirent` counts at least as many blocks as the file has, and some, and has
room for as many pointers on the stack. -/
def CountsBlocks (v : RamfsVolume) (stack p : Nat) : Prop :=
  RamfsMemory.PointersFit stack (v.fs.dirents p).fileSize ∧
    ∀ l, v.memory.BlockList (v.firstBlock p) l →
      (l.length : Int) ≤ RamfsMemory.dataPointerCount (v.fs.dirents p).fileSize

end RamfsVolume

namespace RamfsLedger

/-- The memory that a call took belongs to the entry of the call. -/
def take (s : RamfsLedger) (op : RamfsMemoryOp) (v : RamfsVolume) : RamfsLedger where
  volume := v
  owner a :=
    if s.volume.memory.given ≤ a ∧ a < v.memory.given then s.volume.memoryFor op else s.owner a

def Step (s : RamfsLedger) (op : RamfsMemoryOp) (s' : RamfsLedger) : Prop :=
  ∃ res v, s.volume.memoryCall op = some (res, v) ∧ s' = s.take op v

/-- The ledger of a mount, which belongs to itself. -/
def mount (readOnly : Bool) : RamfsLedger := ⟨.mount readOnly, id⟩

/-- `ramfs_delete` frees an entry and all that was given out for it, exactly once. -/
def DeleteFrees (s : RamfsLedger) (stack : Nat) (path : List Char) (p : Nat) : Prop :=
  ∃ v, s.volume.delete stack path = some (0, v) ∧
    ∀ a, a = p ∨ a < s.volume.memory.given ∧ s.owner a = p → v.memory.freed.count a = 1

/-- All memory is accounted for; `lists` are the blocks of each entry. -/
structure Accounts (s : RamfsLedger) (kids lists : Nat → List Nat) : Prop where
  listed : s.volume.fs.Listed kids
  entry : ∀ p ∈ s.volume.fs.live, s.volume.memory.Live p ∧ s.owner p = p
  owner_lt : ∀ a < s.volume.memory.given, s.owner a < s.volume.memory.given
  list : ∀ p ∈ s.volume.fs.live,
    s.volume.memory.BlockList (s.volume.firstBlock p) (lists p) ∧
      ramfsBlockCount (s.volume.fs.dirents p).fileSize ≤ (lists p).length
  block : ∀ p ∈ s.volume.fs.live, ∀ a ∈ lists p, s.owner a = p ∧ a ≠ p
  owned : ∀ p ∈ s.volume.fs.live, ∀ a < s.volume.memory.given, s.owner a = p →
    a = p ∨ a ∈ lists p ∨ a ∈ s.volume.memory.freed
  freed : s.volume.memory.freed.Nodup
  closed : ∀ p ∈ s.volume.fs.live, (s.volume.fs.dirents p).openCount = 0
  kind : ∀ p ∈ s.volume.fs.live, (s.volume.fs.dirents p).type = .dir ∨
    (s.volume.fs.dirents p).type = .file ∧ s.volume.fs.readOnly = false

variable {s s' : RamfsLedger} {kids lists : Nat → List Nat} {stack p newSize : Nat}
  {op : RamfsMemoryOp} {ops : List RamfsMemoryOp} {l' gone : List Nat}

theorem mount_accounts (readOnly : Bool) :
    (mount readOnly).Accounts (fun _ => []) fun _ => [] where
  listed := (RamfsFiles.mount_valid 0 readOnly).listed
  entry p hp := by
    rw [Finset.mem_singleton.mp hp]
    exact ⟨⟨Nat.one_pos, List.not_mem_nil⟩, rfl⟩
  owner_lt a ha := ha
  list p hp := ⟨⟨rfl, fun a ha => absurd ha List.not_mem_nil⟩, (by decide : ramfsBlockCount 0 ≤ 0)⟩
  block p hp a ha := absurd ha List.not_mem_nil
  owned p hp a ha ho := .inl ho
  freed := List.nodup_nil
  closed p hp := rfl
  kind p hp := .inl rfl

theorem take_owner_old {v : RamfsVolume} {a : Nat} (ha : a < s.volume.memory.given) :
    (s.take op v).owner a = s.owner a :=
  if_neg fun h => Nat.not_le.mpr ha h.1

theorem take_owner_new {v : RamfsVolume} {a : Nat} (hold : s.volume.memory.given ≤ a)
    (hnew : a < v.memory.given) : (s.take op v).owner a = s.volume.memoryFor op :=
  if_pos ⟨hold, hnew⟩

theorem Accounts.setFile (h : s.Accounts kids lists) (hp : p ∈ s.volume.fs.live)
    (hop : s.volume.memoryFor op = p) {first : Option Nat} {memory : RamfsMemory}
    (hlist : memory.BlockList first l')
    (hrewritten : s.volume.memory.Rewritten memory (lists p) l' gone)
    (hcount : ramfsBlockCount newSize ≤ l'.length) :
    (s.take op (s.volume.setFile p first memory newSize)).Accounts kids
      (Function.update lists p l') := by
  have hlinks : Ramfs.SameLinks s.volume.fs (s.volume.setFile p first memory newSize).fs :=
    Ramfs.sameLinks_setDirent (f := fun d => { d with fileSize := newSize }) _ p
      fun d => ⟨rfl, rfl, rfl, rfl, rfl⟩
  have hother : ∀ q ∈ s.volume.fs.live, q ≠ p → ∀ a ∈ lists q, a ∉ lists p := by
    intro q hq hqp a ha hmem
    exact hqp ((h.block q hq a ha).1.symm.trans (h.block p hp a hmem).1)
  have hkept : ∀ a, a ∈ lists p ∨ s.volume.memory.given ≤ a ∧ a < memory.given →
      a ∈ l' ∨ a ∈ memory.freed := by
    intro a ha
    refine (hrewritten.mem_iff.mpr ha).imp_right fun hgone => ?_
    rw [hrewritten.freed]
    exact List.mem_append_left _ hgone
  refine ⟨hlinks.listed h.listed, fun q hq => ?_, fun a ha => ?_, fun q hq => ?_,
    fun q hq a ha => ?_, fun q hq a ha ho => ?_,
    hrewritten.freed_nodup (h.list p hp).1 h.freed, fun q hq => ?_, fun q hq => ?_⟩
  · obtain ⟨hqlive, hqowner⟩ := h.entry q hq
    refine ⟨hrewritten.live hqlive fun hmem => ?_, (take_owner_old hqlive.1).trans hqowner⟩
    obtain ⟨howner, hne⟩ := h.block p hp q hmem
    exact hne (hqowner.symm.trans howner)
  · rcases Nat.lt_or_ge a s.volume.memory.given with hold | hnew
    · rw [take_owner_old hold]
      exact Nat.lt_of_lt_of_le (h.owner_lt a hold) hrewritten.given
    · have howner : (s.take op (s.volume.setFile p first memory newSize)).owner a = p :=
        (take_owner_new hnew ha).trans hop
      rw [howner]
      exact Nat.lt_of_lt_of_le (h.entry p hp).1.1 hrewritten.given
  · by_cases hqp : q = p
    · subst hqp
      rw [Function.update_self, take, RamfsVolume.setFile_firstBlock, RamfsVolume.setFile_size]
      exact ⟨hlist, hcount⟩
    · rw [Function.update_of_ne hqp]
      obtain ⟨hqlist, hqcount⟩ := h.list q hq
      refine ⟨?_, ?_⟩
      · have hfirst : (s.volume.setFile p first memory newSize).firstBlock q =
            s.volume.firstBlock q := Function.update_of_ne hqp _ _
        rw [take, hfirst]
        exact hrewritten.blockList hqlist (hother q hq hqp)
      · rw [take, RamfsVolume.setFile, Ramfs.setDirent_ne hqp]
        exact hqcount
  · by_cases hqp : q = p
    · subst hqp
      rw [Function.update_self] at ha
      rcases hrewritten.mem_iff.mp (.inl ha) with hold | hnew
      · obtain ⟨howner, hne⟩ := h.block q hq a hold
        exact ⟨(take_owner_old ((h.list q hq).1.live a hold).1).trans howner, hne⟩
      · refine ⟨(take_owner_new hnew.1 hnew.2).trans hop, ?_⟩
        rintro rfl
        exact Nat.not_le.mpr (h.entry a hp).1.1 hnew.1
    · rw [Function.update_of_ne hqp] at ha
      obtain ⟨howner, hne⟩ := h.block q hq a ha
      exact ⟨(take_owner_old ((h.list q hq).1.live a ha).1).trans howner, hne⟩
  · rcases Nat.lt_or_ge a s.volume.memory.given with hold | hnew
    · rw [take_owner_old hold] at ho
      rcases h.owned q hq a hold ho with heq | hmem | hmem
      · exact .inl heq
      · by_cases hqp : q = p
        · subst hqp
          rw [Function.update_self]
          exact .inr (hkept a (.inl hmem))
        · rw [Function.update_of_ne hqp]
          exact .inr (.inl hmem)
      · refine .inr (.inr ?_)
        change a ∈ memory.freed
        rw [hrewritten.freed]
        exact List.mem_append_right _ hmem
    · have howner : (s.take op (s.volume.setFile p first memory newSize)).owner a = p :=
        (take_owner_new hnew ha).trans hop
      obtain rfl := howner.symm.trans ho
      rw [Function.update_self]
      exact .inr (hkept a (.inr ⟨hnew, ha⟩))
  · have hopen := h.closed q hq
    by_cases hqp : q = p
    · subst hqp
      rw [take, RamfsVolume.setFile, Ramfs.setDirent_self]
      exact hopen
    · rw [take, RamfsVolume.setFile, Ramfs.setDirent_ne hqp]
      exact hopen
  · have htype := (hlinks.links q).2.2.2.2
    rw [take, htype]
    exact h.kind q hq

theorem take_same (s : RamfsLedger) (op : RamfsMemoryOp) : s.take op s.volume = s := by
  have howner : (s.take op s.volume).owner = s.owner :=
    funext fun a => if_neg fun h => Nat.not_lt.mpr h.1 h.2
  exact congrArg (RamfsLedger.mk s.volume) howner

theorem Accounts.addEntry (h : s.Accounts kids lists) {fs : Ramfs} {kids' : Nat → List Nat}
    (hop : s.volume.memoryFor op = s.volume.memory.given) (hlisted : fs.Listed kids')
    (hlive : fs.live = insert s.volume.memory.given s.volume.fs.live)
    (hwritable : fs.readOnly = false)
    (hold : ∀ q ∈ s.volume.fs.live, (fs.dirents q).fileSize = (s.volume.fs.dirents q).fileSize ∧
      (fs.dirents q).openCount = (s.volume.fs.dirents q).openCount ∧
      (fs.dirents q).type = (s.volume.fs.dirents q).type)
    (hnew : (fs.dirents s.volume.memory.given).fileSize = 0 ∧
      (fs.dirents s.volume.memory.given).openCount = 0 ∧
      (fs.dirents s.volume.memory.given).type = .file) :
    (s.take op ⟨fs, Function.update s.volume.firstBlock s.volume.memory.given none,
      s.volume.memory.kmalloc.2⟩).Accounts kids'
        (Function.update lists s.volume.memory.given []) := by
  have hne : ∀ q ∈ s.volume.fs.live, q ≠ s.volume.memory.given := fun q hq =>
    Nat.ne_of_lt (h.entry q hq).1.1
  have hcases : ∀ q ∈ fs.live, q = s.volume.memory.given ∨ q ∈ s.volume.fs.live := fun q hq =>
    Finset.mem_insert.mp (hlive ▸ hq)
  have howner : (s.take op ⟨fs, Function.update s.volume.firstBlock s.volume.memory.given none,
      s.volume.memory.kmalloc.2⟩).owner s.volume.memory.given = s.volume.memory.given :=
    (take_owner_new (Nat.le_refl _) (Nat.lt_succ_self _)).trans hop
  refine ⟨hlisted, fun q hq => ?_, fun a ha => ?_, fun q hq => ?_, fun q hq a ha => ?_,
    fun q hq a ha ho => ?_, h.freed, fun q hq => ?_, fun q hq => ?_⟩
  · rcases hcases q hq with rfl | hq
    · exact ⟨RamfsMemory.live_given, howner⟩
    · obtain ⟨hqlive, hqowner⟩ := h.entry q hq
      exact ⟨RamfsMemory.live_kmalloc hqlive, (take_owner_old hqlive.1).trans hqowner⟩
  · rcases Nat.lt_succ_iff_lt_or_eq.mp ha with hlt | rfl
    · rw [take_owner_old hlt]
      exact Nat.lt_succ_of_lt (h.owner_lt a hlt)
    · rw [howner]
      exact Nat.lt_succ_self _
  · rcases hcases q hq with rfl | hq
    · rw [Function.update_self]
      refine ⟨⟨Function.update_self .., fun a ha => absurd ha List.not_mem_nil⟩, ?_⟩
      change ramfsBlockCount (fs.dirents s.volume.memory.given).fileSize ≤ 0
      rw [hnew.1]
      decide
    · rw [Function.update_of_ne (hne q hq)]
      obtain ⟨hqlist, hqcount⟩ := h.list q hq
      refine ⟨?_, ?_⟩
      · have hfirst : Function.update s.volume.firstBlock s.volume.memory.given none q =
            s.volume.firstBlock q := Function.update_of_ne (hne q hq) _ _
        change s.volume.memory.kmalloc.2.BlockList
          (Function.update s.volume.firstBlock s.volume.memory.given none q) (lists q)
        rw [hfirst]
        exact hqlist.congr
          (fun a ha => RamfsMemory.kmalloc_blocks (Nat.ne_of_lt (hqlist.live a ha).1))
          fun a ha => RamfsMemory.live_kmalloc (hqlist.live a ha)
      · rw [take, (hold q hq).1]
        exact hqcount
  · rcases hcases q hq with rfl | hq
    · rw [Function.update_self] at ha
      cases ha
    · rw [Function.update_of_ne (hne q hq)] at ha
      obtain ⟨hqowner, hqne⟩ := h.block q hq a ha
      exact ⟨(take_owner_old ((h.list q hq).1.live a ha).1).trans hqowner, hqne⟩
  · rcases Nat.lt_succ_iff_lt_or_eq.mp ha with hlt | rfl
    · rw [take_owner_old hlt] at ho
      have hqne : q ≠ s.volume.memory.given := Nat.ne_of_lt (ho ▸ h.owner_lt a hlt)
      rw [Function.update_of_ne hqne]
      exact h.owned q ((hcases q hq).resolve_left hqne) a hlt ho
    · exact .inl (howner.symm.trans ho)
  · rcases hcases q hq with rfl | hq
    · exact hnew.2.1
    · exact (hold q hq).2.1.trans (h.closed q hq)
  · rcases hcases q hq with rfl | hq
    · exact .inr ⟨hnew.2.2, hwritable⟩
    · refine (h.kind q hq).imp ((hold q hq).2.2.trans ·) fun hfile => ?_
      exact ⟨(hold q hq).2.2.trans hfile.1, hwritable⟩

theorem Accounts.createFile (h : s.Accounts kids lists) {path : List Char} {res : Int}
    {v : RamfsVolume} (hcall : s.volume.createFile path = some (res, v)) :
    ∃ kids lists, (s.take (.createFile path) v).Accounts kids lists := by
  rw [RamfsVolume.createFile] at hcall
  split at hcall
  next hro =>
    cases hcall
    rw [take_same]
    exact ⟨kids, lists, h⟩
  next hro =>
    obtain ⟨found, hfound, hcall⟩ := Option.bind_eq_some_iff.mp hcall
    cases found with
    | ok p =>
        cases hcall
        rw [take_same]
        exact ⟨kids, lists, h⟩
    | error err =>
        dsimp only at hcall
        split at hcall
        next hlong => cases hcall
        next hparts =>
          rw [not_or, Nat.not_le, Nat.not_le] at hparts
          obtain ⟨⟨res', fs⟩, hadd, heq⟩ := Option.bind_eq_some_iff.mp hcall
          cases heq
          have hnew : s.volume.memory.given ∉ s.volume.fs.live := fun hmem =>
            Nat.lt_irrefl _ (h.entry _ hmem).1.1
          have hchild : (newDirent (filenameOf path) .file 0).child = none := rfl
          obtain ⟨res'', fs', kids', hadd', hlisted, hlive, -, hro', hsame⟩ :=
            h.listed.addNew (Bool.eq_false_of_not_eq_true hro) hnew hchild
              (RamfsFiles.fitsNames_dirname hparts.1)
          obtain rfl := (Prod.mk.inj (Option.some.inj (hadd.symm.trans hadd'))).2
          have hself : (s.volume.fs.insertDirent s.volume.memory.given
              (newDirent (filenameOf path) .file 0)).dirents s.volume.memory.given =
                newDirent (filenameOf path) .file 0 := Function.update_self ..
          refine ⟨kids', _, h.addEntry rfl hlisted hlive
            (hro'.trans (Bool.eq_false_of_not_eq_true hro)) (fun q hq => ?_) ?_⟩
          · have hne : q ≠ s.volume.memory.given := fun heq => hnew (heq ▸ hq)
            have hold : (s.volume.fs.insertDirent s.volume.memory.given
                (newDirent (filenameOf path) .file 0)).dirents q = s.volume.fs.dirents q :=
              Function.update_of_ne hne _ _
            rw [← hold]
            exact hsame q
          · have hfresh := hsame s.volume.memory.given
            rw [hself] at hfresh
            exact hfresh

theorem Accounts.write (h : s.Accounts kids lists) {buffer : List UInt8} {offset : Nat} {res : Int}
    {v : RamfsVolume} (hcall : s.volume.write 0 p buffer offset = some (res, v)) :
    ∃ kids lists, (s.take (.write p buffer offset) v).Accounts kids lists := by
  by_cases hro : s.volume.fs.readOnly = true
  · rw [RamfsVolume.write, if_pos hro] at hcall
    cases hcall
    rw [take_same]
    exact ⟨kids, lists, h⟩
  · by_cases hp : p ∈ s.volume.fs.live
    · rcases h.kind p hp with hdir | ⟨hfile, hwritable⟩
      · rw [RamfsVolume.write, if_neg hro, Ramfs.get_of_mem hp, Option.bind_eq_bind,
          Option.bind_some, if_pos hdir] at hcall
        cases hcall
        rw [take_same]
        exact ⟨kids, lists, h⟩
      · obtain ⟨hlist, hcount⟩ := h.list p hp
        obtain ⟨first, memory, l', hwrite, hlist', hext, hcontents⟩ :=
          RamfsVolume.write_of_file hwritable hp hfile hlist 0 buffer offset
        have hcovers := @RamfsVolume.covers_write (s.volume.memory.contents (lists p)) buffer offset
        rw [RamfsMemory.length_contents, ← hcontents, RamfsMemory.length_contents] at hcovers
        rw [hwrite] at hcall
        cases hcall
        refine ⟨kids, _, h.setFile hp rfl hlist' hext.rewritten ?_⟩
        rcases Nat.le_total (s.volume.fs.dirents p).fileSize
          ((offset + buffer.length) % 2 ^ 64) with hle | hle
        · rw [Nat.max_eq_right hle]
          exact Nat.le_trans (Ramfs.ramfsBlockCount_le _)
            (Ramfs.le_blocks_iff.mp (Nat.le_trans (Nat.mod_le _ _) hcovers))
        · rw [Nat.max_eq_left hle]
          exact Nat.le_trans hcount hext.length_le
    · rw [RamfsVolume.write, if_neg hro, Ramfs.get, if_neg hp] at hcall
      cases hcall

theorem Accounts.truncate (h : s.Accounts kids lists) {res : Int}
    {v : RamfsVolume} (hcall : s.volume.truncate p newSize = some (res, v)) :
    ∃ kids lists, (s.take (.truncate p newSize) v).Accounts kids lists := by
  by_cases hp : p ∈ s.volume.fs.live
  · obtain ⟨hlist, hcount⟩ := h.list p hp
    rcases Nat.lt_or_ge (RamfsMemory.truncateRounds (s.volume.firstBlock p)
        (s.volume.fs.dirents p).fileSize newSize) (2 ^ 31) with hfew | hmany
    · rw [← RamfsMemory.length_contents] at hcount
      obtain ⟨blocks, hblocks, hlength⟩ := Ramfs.truncateBlocks_spec newSize hcount
      obtain ⟨first, memory, l', gone, htruncate, hlist', hrewritten, hcontents⟩ :=
        RamfsVolume.truncate_of_list hp hlist hfew hblocks
      rw [htruncate] at hcall
      cases hcall
      refine ⟨kids, _, h.setFile hp rfl hlist' hrewritten ?_⟩
      rwa [← RamfsMemory.length_contents, hcontents]
    · rw [RamfsVolume.truncate_overflow hp hlist hmany] at hcall
      cases hcall
  · rw [RamfsVolume.truncate, Ramfs.get, if_neg hp] at hcall
    cases hcall

theorem Accounts.step (h : s.Accounts kids lists) (hstep : s.Step op s') :
    ∃ kids lists, s'.Accounts kids lists := by
  obtain ⟨res, v, hcall, rfl⟩ := hstep
  cases op with
  | createFile path => exact h.createFile hcall
  | write p buffer offset => exact h.write hcall
  | truncate p newSize => exact h.truncate hcall

/-- All memory is accounted for after any calls. -/
theorem run_accounts {readOnly : Bool} (hrun : Run Step (mount readOnly) ops s) :
    ∃ kids lists, s.Accounts kids lists := by
  apply hrun.invariant (fun s => ∃ kids lists, s.Accounts kids lists)
  · rintro s op s' hstep ⟨kids, lists, h⟩
    exact h.step hstep
  · exact ⟨_, _, mount_accounts readOnly⟩

theorem Accounts.delete_memory (h : s.Accounts kids lists) (stack : Nat) {path : List Char}
    (hpath : s.volume.fs.getDirent path = some (.ok p))
    (hfile : (s.volume.fs.dirents p).type = .file) :
    ∃ fs, s.volume.delete stack path =
      (s.volume.memory.freeBlocks stack (s.volume.firstBlock p)
        (s.volume.fs.dirents p).fileSize).bind
        fun memory => (memory.kfree (some p)).map
          fun memory => (0, ⟨fs, s.volume.firstBlock, memory⟩) := by
  have htree := h.listed.inTree_of_getDirent hpath
  have hp := h.listed.mem_live htree
  have hroot : p ≠ s.volume.fs.root := by
    rintro rfl
    cases h.listed.rootDir.symm.trans hfile
  obtain ⟨d, hd, hmem⟩ := htree.resolve_left hroot
  obtain ⟨l, r, hkids⟩ := List.append_of_mem hmem
  have hro : ¬ s.volume.fs.readOnly = true := by
    rcases h.kind p hp with hdir | hwritable
    · cases hdir.symm.trans hfile
    · rw [hwritable.2]
      exact Bool.false_ne_true
  have hlinks : Ramfs.SameLinks s.volume.fs
      (s.volume.fs.setDirent p fun d => { d with toDelete := true }) :=
    Ramfs.sameLinks_setDirent (f := fun d => { d with toDelete := true }) _ p
      fun d => ⟨rfl, rfl, rfl, rfl, rfl⟩
  have hmarked := Ramfs.setDirent_self (s := s.volume.fs) p fun d => { d with toDelete := true }
  rw [RamfsVolume.delete, if_neg hro, hpath, Option.bind_eq_bind, Option.bind_some]
  dsimp only
  rw [Ramfs.modify_of_mem hp, Option.bind_eq_bind, Option.bind_some]
  generalize (s.volume.fs.setDirent p fun d => { d with toDelete := true }) = marked
    at hlinks hmarked
  -- the entry is marked, and in its list as before
  have hp' : p ∈ marked.live := hlinks.live ▸ hp
  have hclosed : ¬ 0 < (marked.dirents p).openCount := by
    rw [hmarked, h.closed p hp]
    exact Nat.lt_irrefl 0
  have hsize :
      ((marked.unlinked d p l r).dirents p).fileSize = (s.volume.fs.dirents p).fileSize := by
    change (marked.dirents p).fileSize = _
    rw [hmarked]
  have hget : (marked.unlinked d p l r).get p = some ((marked.unlinked d p l r).dirents p) :=
    Ramfs.get_of_mem hp'
  refine ⟨{ marked.unlinked d p l r with live := (marked.unlinked d p l r).live.erase p }, ?_⟩
  rw [Ramfs.get_of_mem hp', Option.bind_eq_bind, Option.bind_some, if_neg hclosed,
    RamfsVolume.freeDirent, (hlinks.listed h.listed).unlink (hlinks.live ▸ hd) hkids,
    Option.bind_eq_bind, Option.bind_some, hget, Option.bind_eq_bind, Option.bind_some, hsize]
  dsimp only
  cases s.volume.memory.freeBlocks stack (s.volume.firstBlock p)
      (s.volume.fs.dirents p).fileSize with
  | none => rfl
  | some memory =>
      rw [Option.bind_eq_bind, Option.bind_some, Option.bind_some]
      cases memory.kfree (some p) with
      | none => rfl
      | some memory => rfl

/-- `ramfs_delete` frees the blocks that are counted, and the entry. -/
theorem Accounts.delete (h : s.Accounts kids lists) {path : List Char}
    (hpath : s.volume.fs.getDirent path = some (.ok p))
    (hfile : (s.volume.fs.dirents p).type = .file)
    (hfit : RamfsMemory.PointersFit stack (s.volume.fs.dirents p).fileSize) :
    ∃ v, s.volume.delete stack path = some (0, v) ∧ v.memory.freed =
      p :: (lists p).take (RamfsMemory.dataPointerCount (s.volume.fs.dirents p).fileSize).toNat ++
        s.volume.memory.freed := by
  have hp := h.listed.mem_live (h.listed.inTree_of_getDirent hpath)
  obtain ⟨fs, hdelete⟩ := h.delete_memory stack hpath hfile
  obtain ⟨memory, hfree, hfreed⟩ := (h.list p hp).1.freeBlocks hfit
  have hlive : memory.Live p := by
    refine ⟨by rw [hfreed.given]; exact (h.entry p hp).1.1, ?_⟩
    rw [hfreed.freed, List.mem_append]
    rintro (hmem | hmem)
    · exact (h.block p hp p (List.mem_of_mem_take hmem)).2 rfl
    · exact (h.entry p hp).1.2 hmem
  rw [hfree, Option.bind_some, RamfsMemory.kfree_of_live hlive] at hdelete
  refine ⟨_, hdelete, ?_⟩
  rw [List.cons_append, ← hfreed.freed]

/-- A deletion frees all of a file exactly when it counts its blocks. -/
theorem Accounts.deleteFrees_iff (h : s.Accounts kids lists) {path : List Char}
    (hpath : s.volume.fs.getDirent path = some (.ok p))
    (hfile : (s.volume.fs.dirents p).type = .file) :
    s.DeleteFrees stack path p ↔ s.volume.CountsBlocks stack p := by
  have hp := h.listed.mem_live (h.listed.inTree_of_getDirent hpath)
  have hlist := (h.list p hp).1
  have hentry := (h.entry p hp).1
  constructor
  · rintro ⟨v, hdelete, hfrees⟩
    have hfit : RamfsMemory.PointersFit stack (s.volume.fs.dirents p).fileSize := by
      by_contra hnone
      obtain ⟨fs, hdelete'⟩ := h.delete_memory stack hpath hfile
      rw [RamfsMemory.freeBlocks, if_neg hnone, hdelete] at hdelete'
      cases hdelete'
    have hpos := hfit.1
    refine ⟨hfit, fun l hl => Int.le_of_not_gt fun hmore => ?_⟩
    obtain rfl := hl.chain.unique hlist.chain
    obtain ⟨v', hdelete', hfreed⟩ := h.delete hpath hfile hfit
    obtain rfl := (Prod.mk.inj (Option.some.inj (hdelete.symm.trans hdelete'))).2
    generalize RamfsMemory.dataPointerCount (s.volume.fs.dirents p).fileSize = count at *
    -- the first block that is not counted
    have hlt : count.toNat < (lists p).length := by omega
    have hmem : (lists p)[count.toNat] ∈ lists p := List.getElem_mem hlt
    have hone := hfrees _ (.inr ⟨(hlist.live _ hmem).1, (h.block p hp _ hmem).1⟩)
    have hzero : v.memory.freed.count (lists p)[count.toNat] = 0 := by
      rw [List.count_eq_zero, hfreed, List.mem_append, List.mem_cons]
      rintro ((heq | htaken) | hfreed)
      · exact (h.block p hp _ hmem).2 heq
      · obtain ⟨i, hi, heq⟩ := List.getElem_of_mem htaken
        rw [List.length_take] at hi
        rw [List.getElem_take] at heq
        have hindex := (hlist.nodup.getElem_inj_iff).mp heq
        omega
      · exact (hlist.live _ hmem).2 hfreed
    omega
  · rintro ⟨hfit, hcounts⟩
    obtain ⟨v, hdelete, hfreed⟩ := h.delete hpath hfile hfit
    have hall := hcounts _ hlist
    generalize RamfsMemory.dataPointerCount (s.volume.fs.dirents p).fileSize = count at *
    rw [List.take_of_length_le (by omega)] at hfreed
    refine ⟨v, hdelete, fun a ha => List.count_eq_one_of_mem ?_ ?_⟩
    · rw [hfreed, List.cons_append, List.nodup_cons, List.mem_append]
      refine ⟨?_, hlist.nodup.append h.freed fun a hmem hfreed => (hlist.live a hmem).2 hfreed⟩
      rintro (hmem | hmem)
      · exact (h.block p hp p hmem).2 rfl
      · exact hentry.2 hmem
    · rw [hfreed, List.cons_append, List.mem_cons, List.mem_append]
      exact ha.elim .inl fun hown => h.owned p hp a hown.1 hown.2

/-- `ramfs_delete` frees all memory of a file, exactly once, if and only if the number of
blocks that it counts for the size is no less than the number that there is, and its array
of them fits on the stack. -/
theorem ramfs_delete_frees_iff {readOnly : Bool} (hrun : Run Step (mount readOnly) ops s)
    {path : List Char} (hpath : s.volume.fs.getDirent path = some (.ok p))
    (hfile : (s.volume.fs.dirents p).type = .file) :
    s.DeleteFrees stack path p ↔ s.volume.CountsBlocks stack p := by
  obtain ⟨kids, lists, h⟩ := run_accounts hrun
  exact h.deleteFrees_iff hpath hfile

def oneFile : RamfsLedger :=
  (mount false).take (.createFile "a".toList) RamfsVolume.oneFileMount

theorem oneFile_step : Step (mount false) (.createFile "a".toList) oneFile :=
  ⟨0, RamfsVolume.oneFileMount, rfl, rfl⟩

theorem oneByte_run :
    ∃ first memory l, Run Step (mount false) [.createFile "a".toList, .write 1 [7] 0]
        (oneFile.take (.write 1 [7] 0) (RamfsVolume.oneFileMount.setFile 1 first memory 1)) ∧
      memory.BlockList first l ∧ l.length = 2 := by
  obtain ⟨v, l, hwrite, hzero, -, hlength, -⟩ := RamfsVolume.oneFileMount_write
  obtain ⟨first, memory, l', hwrite', -⟩ := RamfsVolume.write_of_file
    RamfsVolume.oneFileMount_fresh.writable RamfsVolume.oneFileMount_fresh.live
    RamfsVolume.oneFileMount_fresh.file RamfsVolume.oneFileMount_fresh.fileAt.list 0 [7] 0
  obtain rfl := (Prod.mk.inj (Option.some.inj (hwrite.symm.trans hwrite'))).2
  exact ⟨first, memory, l, .cons oneFile_step (.single ⟨1, _, hwrite', rfl⟩), hzero.list, hlength⟩

/-- When its size is set to that of a block, both of its blocks are freed. -/
theorem ramfs_delete_frees_blocks :
    ∃ s l, Run Step (mount false)
        [.createFile "a".toList, .write 1 [7] 0, .truncate 1 ramfsBlockSize] s ∧
      s.volume.memory.BlockList (s.volume.firstBlock 1) l ∧ l.length = 2 ∧
      s.DeleteFrees (4096 * 32) "a".toList 1 := by
  obtain ⟨first, memory, l, hrun, hlist, hlength⟩ := oneByte_run
  have hsame : (RamfsVolume.oneFileMount.setFile 1 first memory 1).truncate 1 ramfsBlockSize =
      some (0, (RamfsVolume.oneFileMount.setFile 1 first memory 1).setFile 1 first memory
        ramfsBlockSize) := by
    have hlive : 1 ∈ (RamfsVolume.oneFileMount.setFile 1 first memory 1).fs.live :=
      RamfsVolume.oneFileMount_fresh.live
    rw [RamfsVolume.truncate, Ramfs.get_of_mem hlive, Option.bind_eq_bind, Option.bind_some,
      RamfsVolume.setFile_size, RamfsVolume.setFile_firstBlock]
    rfl
  have hstep : Step (oneFile.take (.write 1 [7] 0)
      (RamfsVolume.oneFileMount.setFile 1 first memory 1)) (.truncate 1 ramfsBlockSize) _ :=
    ⟨0, _, hsame, rfl⟩
  have hrun' := hrun.append (.single hstep)
  refine ⟨_, l, hrun', hlist, hlength, (ramfs_delete_frees_iff hrun' rfl rfl).mpr
    ⟨(by decide : RamfsMemory.PointersFit (4096 * 32) ramfsBlockSize), fun l' hl' => ?_⟩⟩
  rw [hl'.chain.unique hlist.chain, hlength]
  exact (by decide : 2 ≤ RamfsMemory.dataPointerCount ramfsBlockSize)

/-- A file with one byte has two blocks, and only the first one is counted. -/
theorem ramfs_delete_leaks :
    ∃ s, Run Step (mount false) [.createFile "a".toList, .write 1 [7] 0] s ∧
      s.volume.fs.getDirent "a".toList = some (.ok 1) ∧ (s.volume.fs.dirents 1).type = .file ∧
      ¬ s.DeleteFrees (4096 * 32) "a".toList 1 := by
  obtain ⟨first, memory, l, hrun, hlist, hlength⟩ := oneByte_run
  obtain ⟨kids, lists, h⟩ := run_accounts hrun
  refine ⟨_, hrun, rfl, rfl, fun hfrees => ?_⟩
  have hcounts : (l.length : Int) ≤ RamfsMemory.dataPointerCount 1 :=
    ((h.deleteFrees_iff rfl rfl).mp hfrees).2 l hlist
  rw [hlength] at hcounts
  exact absurd hcounts (by decide)

end RamfsLedger

end GlitchedOS
