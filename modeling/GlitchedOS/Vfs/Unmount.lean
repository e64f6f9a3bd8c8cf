/-
The tree of mounts.  The mounts on the files of a mount are a list through their `next`
pointers, and each of them points back to it; mounting and unmounting keep that.  But
`unmount_filesystem` takes a mount out of its list before it asks the file system, so
that an error of the file system leaves the mount out of the tree.
-/
import GlitchedOS.Vfs.MountRoots
import GlitchedOS.Lib.Chain
import GlitchedOS.Lib.Run

namespace GlitchedOS

/-- The mounts in the list of a mount, in order. -/
def Mounted (v : MountTable) (p : Nat) (l : List Nat) : Prop :=
  Chain (fun m => (v.mounts m).next) (v.mounts p).children l

/-- The mounts in memory are a tree. -/
structure MountTree (v : MountTable) : Prop where
  root : v.root ∈ v.live
  mounted : ∀ p ∈ v.live, ∃ l, Mounted v p l ∧
    ∀ m ∈ l, m ∈ v.live ∧ (v.mounts m).parent = some p

/-- The parent, the list and the next mount of each mount are the same. -/
def SameLinks (v v' : MountTable) : Prop :=
  ∀ m, (v'.mounts m).parent = (v.mounts m).parent ∧
    (v'.mounts m).children = (v.mounts m).children ∧ (v'.mounts m).next = (v.mounts m).next

/-- The path leads into a mount that is not the root file system, and that has no open
files and no mounts on it. -/
def Unmountable (walk : WalkEnv) (fuel : Nat) (v : MountTable) (path : List String) : Prop :=
  ∃ file, findMountpoint walk fuel v path = some (.ok file) ∧ file.mountpoint ≠ v.root ∧
    (v.mounts file.mountpoint).refcount ≤ 0 ∧ (v.mounts file.mountpoint).children = none

variable {v v' : MountTable} {walk : WalkEnv} {fuel : Nat} {path : List String} {p m : Nat}

theorem SameLinks.refl (v : MountTable) : SameLinks v v := fun _ => ⟨rfl, rfl, rfl⟩

theorem Mounted.mem_coveringMount {l : List Nat} {first handle n found : Nat} {start : Option Nat}
    (h : Chain (fun m => (v.mounts m).next) start l) (hstart : start = some m)
    (hfound : coveringMount v first handle n m = some (some found)) : found ∈ l := by
  induction n generalizing l start m with
  | zero => cases hfound
  | succ n ih =>
      cases l with
      | nil => cases (show start = none from h).symm.trans hstart
      | cons a rest =>
          obtain rfl := Option.some.inj (h.1.symm.trans hstart)
          rw [coveringMount] at hfound
          split at hfound
          · obtain rfl := Option.some.inj (Option.some.inj hfound)
            exact List.mem_cons_self
          · split at hfound
            · cases hfound
            · rename_i next hnext
              split at hfound
              · cases hfound
              · exact List.mem_cons_of_mem a (ih h.2 hnext hfound)

/-- A mount that the walk reaches is the root file system or in the list of its parent. -/
def InTree (v : MountTable) (m : Nat) : Prop :=
  m ∈ v.live ∧ (m = v.root ∨ ∃ p ∈ v.live, (v.mounts m).parent = some p ∧
    ∃ l, Mounted v p l ∧ m ∈ l)

theorem MountTree.crossMount (h : MountTree v) {current handle : Nat} {next : FileHandle}
    (hcurrent : InTree v current) (hnext : crossMount walk fuel v current handle = some next) :
    InTree v next.mountpoint := by
  rw [GlitchedOS.crossMount] at hnext
  split at hnext
  · obtain rfl := Option.some.inj hnext
    exact hcurrent
  · rename_i first hfirst
    obtain ⟨found, hfound, rfl⟩ := Option.map_eq_some_iff.mp hnext
    cases found with
    | none => exact hcurrent
    | some m =>
        obtain ⟨l, hmounted, hl⟩ := h.mounted current hcurrent.1
        have hmem : m ∈ l := Mounted.mem_coveringMount hmounted hfirst hfound
        obtain ⟨hlive, hparent⟩ := hl m hmem
        exact ⟨hlive, .inr ⟨current, hcurrent.1, hparent, l, hmounted, hmem⟩⟩

theorem MountTree.walkPath (h : MountTree v) {at_ file : FileHandle} (hat : InTree v at_.mountpoint)
    (hwalk : walkPath walk fuel v path at_ = some (.ok file)) : InTree v file.mountpoint := by
  induction path generalizing at_ with
  | nil =>
      obtain rfl := Except.ok.inj (Option.some.inj hwalk)
      exact hat
  | cons name rest ih =>
      rw [GlitchedOS.walkPath] at hwalk
      split at hwalk
      · cases hwalk
      · obtain ⟨next, hnext, hwalk⟩ := Option.bind_eq_some_iff.mp hwalk
        exact ih (h.crossMount hat hnext) hwalk

theorem MountTree.findMountpoint (h : MountTree v) {file : FileHandle}
    (hfind : findMountpoint walk fuel v path = some (.ok file)) : InTree v file.mountpoint :=
  h.walkPath ⟨h.root, .inl rfl⟩ hfind

/-- A mount is taken out of the list of `p`, from between `before` and `after`. -/
structure MountUnlinked (v v' : MountTable) (p : Nat) (before after : List Nat) : Prop where
  live : v'.live = v.live
  root : v'.root = v.root
  parent : ∀ q, (v'.mounts q).parent = (v.mounts q).parent
  next : ∀ q, q ∉ before → (v'.mounts q).next = (v.mounts q).next
  children : ∀ q, q ≠ p → (v'.mounts q).children = (v.mounts q).children
  refcount : ∀ q, (v'.mounts q).refcount = (v.mounts q).refcount
  mounted : Mounted v' p (before ++ after)

theorem unlinkLoop_chain {before after : List Nat} {s n : Nat} {start : Option Nat}
    (h : Chain (fun m => (v.mounts m).next) start (before ++ s :: m :: after))
    (hloop : unlinkLoop v m n start = some v') :
    v' = v.modify s fun x => { x with next := (v.mounts m).next } := by
  induction before generalizing start n with
  | nil =>
      obtain ⟨rfl, hnext, -⟩ := h
      cases n with
      | zero => cases hloop
      | succ n =>
          rw [unlinkLoop, if_pos hnext] at hloop
          exact (Option.some.inj hloop).symm
  | cons b before ih =>
      obtain ⟨rfl, htail⟩ := h
      cases n with
      | zero => cases hloop
      | succ n =>
          have hother : (v.mounts b).next ≠ some m := Chain.start_ne htail
          rw [unlinkLoop, if_neg hother] at hloop
          exact ih htail hloop

theorem unlinkMount_spec {before after : List Nat} (h : Mounted v p (before ++ m :: after))
    (hunlink : unlinkMount fuel v m p = some v') : MountUnlinked v v' p before after := by
  rw [unlinkMount] at hunlink
  cases before using List.reverseRec with
  | nil =>
      rw [if_pos h.1] at hunlink
      obtain rfl := Option.some.inj hunlink
      have hnext : ∀ q, ((v.modify p fun x => { x with children := (v.mounts m).next }).mounts
          q).next = (v.mounts q).next := by
        intro q
        rw [MountTable.modify_mounts]
        split <;> simp_all
      refine ⟨rfl, rfl, fun q => ?_, fun q _ => hnext q, fun q hq => ?_, fun q => ?_, ?_⟩
      · rw [MountTable.modify_mounts]
        split <;> simp_all
      · rw [MountTable.modify_mounts, if_neg hq]
      · rw [MountTable.modify_mounts]
        split <;> simp_all
      · rw [Mounted, MountTable.modify_mounts, if_pos rfl]
        exact h.2.congr fun q _ => hnext q
  | append_singleton before s =>
      rw [Mounted, List.append_assoc, List.singleton_append] at h
      have hfirst : (v.mounts p).children ≠ some m := Chain.start_ne h
      rw [if_neg hfirst] at hunlink
      obtain rfl := unlinkLoop_chain h hunlink
      have hother : ∀ q, q ≠ s → ((v.modify s fun x =>
          { x with next := (v.mounts m).next }).mounts q) = v.mounts q := by
        intro q hq
        rw [MountTable.modify_mounts, if_neg hq]
      have hchildren : ∀ q, ((v.modify s fun x =>
          { x with next := (v.mounts m).next }).mounts q).children = (v.mounts q).children := by
        intro q
        rw [MountTable.modify_mounts]
        split <;> simp_all
      refine ⟨rfl, rfl, fun q => ?_, fun q hq => ?_, fun q _ => hchildren q, fun q => ?_, ?_⟩
      · rw [MountTable.modify_mounts]
        split <;> simp_all
      · rw [hother q fun heq => hq (heq ▸ by simp)]
      · rw [MountTable.modify_mounts]
        split <;> simp_all
      · rw [Mounted, hchildren, List.append_assoc, List.singleton_append]
        refine h.remove_after ?_ fun q hq => ?_
        · rw [MountTable.modify_mounts, if_pos rfl]
        · have hsplit := h.ne_of_split
          rcases List.mem_append.mp hq with hq | hq
          · rw [hother q (hsplit.1 q hq)]
          · rw [hother q (hsplit.2 q (List.mem_cons_of_mem m hq))]

theorem MountUnlinked.not_sameLinks {before after : List Nat}
    (hunlinked : MountUnlinked v v' p before after)
    (h : Mounted v p (before ++ m :: after)) : ¬ SameLinks v v' := by
  intro hsame
  have hthere : Mounted v p (before ++ after) := by
    have hmounted := hunlinked.mounted
    rw [Mounted, (hsame p).2.1] at hmounted
    exact hmounted.congr fun q _ => (hsame q).2.2.symm
  have hlength := congrArg List.length (Chain.unique h hthere)
  simp at hlength

theorem MountTree.of_links (h : MountTree v) (hlive : v'.live = v.live) (hroot : v'.root = v.root)
    (hlinks : SameLinks v v') : MountTree v' := by
  refine ⟨by rw [hlive, hroot]; exact h.root, fun p hp => ?_⟩
  rw [hlive] at hp
  obtain ⟨l, hmounted, hl⟩ := h.mounted p hp
  refine ⟨l, ?_, fun m hm => ?_⟩
  · rw [Mounted, (hlinks p).2.1]
    exact hmounted.congr fun m _ => (hlinks m).2.2
  · rw [hlive, (hlinks m).1]
    exact hl m hm

theorem MountTable.modify_refcount (v : MountTable) (m : Nat) (f : Int → Int) :
    SameLinks v (v.modify m fun x => { x with refcount := f x.refcount }) := by
  intro q
  rw [MountTable.modify_mounts]
  split <;> simp_all

theorem MountTree.not_mem (h : MountTree v) (hm : m ∉ v.live) {l : List Nat} (hp : p ∈ v.live)
    (hl : Mounted v p l) : m ∉ l := by
  intro hmem
  obtain ⟨l', hmounted, hlive⟩ := h.mounted p hp
  obtain rfl := Chain.unique hl hmounted
  exact hm (hlive m hmem).1

theorem linkMount_of_ne {new parent handle type q : Nat} (hq : q ≠ new) :
    ((linkMount v new parent handle type).mounts q).parent = (v.mounts q).parent ∧
      ((linkMount v new parent handle type).mounts q).next = (v.mounts q).next ∧
      (q ≠ parent → ((linkMount v new parent handle type).mounts q).children =
        (v.mounts q).children) := by
  simp only [linkMount, MountTable.modify_mounts, Function.update_apply]
  split <;> simp_all

/-- The new mount comes first in the list of its parent, and all else stays. -/
theorem MountTree.mounted_linkMount (h : MountTree v) {new parent handle type : Nat}
    (hnew : new ∉ v.live) (hparent : parent ∈ v.live) {l : List Nat} (hp : p ∈ v.live)
    (hl : Mounted v p l) :
    Mounted (linkMount v new parent handle type) p (if p = parent then new :: l else l) := by
  have hne : ∀ q ∈ v.live, q ≠ new := fun q hq heq => hnew (heq ▸ hq)
  have hnewParent : parent ≠ new := hne parent hparent
  have hnext : ∀ q ∈ l, ((linkMount v new parent handle type).mounts q).next =
      (v.mounts q).next := by
    intro q hq
    exact (linkMount_of_ne fun heq : q = new => h.not_mem hnew hp hl (heq ▸ hq)).2.1
  split
  · rename_i heq
    subst heq
    refine ⟨?_, ?_⟩
    · simp [linkMount, MountTable.modify_mounts]
    · have hlast : ((linkMount v new p handle type).mounts new).next =
          (v.mounts p).children := by
        simp [linkMount, MountTable.modify_mounts, hnewParent.symm]
      simp only [hlast]
      exact hl.congr hnext
  · rename_i hpp
    rw [Mounted, (linkMount_of_ne (hne p hp)).2.2 hpp]
    exact hl.congr hnext

theorem MountTree.linkMount (h : MountTree v) {new parent handle type : Nat} (hnew : new ∉ v.live)
    (hparent : parent ∈ v.live) : MountTree (linkMount v new parent handle type) := by
  have hne : ∀ q ∈ v.live, q ≠ new := fun q hq heq => hnew (heq ▸ hq)
  have hnewParent : parent ≠ new := hne parent hparent
  refine ⟨Finset.mem_insert_of_mem h.root, fun p hp => ?_⟩
  rcases Finset.mem_insert.mp hp with rfl | hp
  · refine ⟨[], ?_, fun m hm => absurd hm List.not_mem_nil⟩
    simp [Mounted, Chain, GlitchedOS.linkMount, MountTable.modify_mounts, hnewParent.symm]
  · obtain ⟨l, hmounted, hl⟩ := h.mounted p hp
    have hkept : ∀ q ∈ l, q ∈ insert new v.live ∧
        ((GlitchedOS.linkMount v new parent handle type).mounts q).parent = some p := by
      intro q hq
      rw [(linkMount_of_ne (hne q (hl q hq).1)).1]
      exact ⟨Finset.mem_insert_of_mem (hl q hq).1, (hl q hq).2⟩
    refine ⟨_, h.mounted_linkMount hnew hparent hp hmounted, fun q hq => ?_⟩
    split at hq
    · rename_i heq
      subst heq
      rcases List.mem_cons.mp hq with rfl | hq
      · exact ⟨Finset.mem_insert_self _ _, by
          simp [GlitchedOS.linkMount, MountTable.modify_mounts, hnewParent.symm]⟩
      · exact hkept q hq
    · exact hkept q hq

/-- Other lists do not hold the mounts of this one, and stay. -/
theorem MountTree.mounted_other (h : MountTree v) {before after lq : List Nat} (hp : p ∈ v.live)
    (hlist : Mounted v p (before ++ m :: after)) (hunlinked : MountUnlinked v v' p before after)
    {q : Nat} (hq : q ∈ v.live) (hqp : q ≠ p) (hlq : Mounted v q lq) :
    Mounted v' q lq ∧ m ∉ lq := by
  obtain ⟨l, hmounted, hl⟩ := h.mounted p hp
  obtain rfl := Chain.unique hmounted hlist
  obtain ⟨l', hmounted', hl'⟩ := h.mounted q hq
  obtain rfl := Chain.unique hmounted' hlq
  have hapart : ∀ c ∈ before ++ m :: after, c ∉ l' := by
    intro c hc hcq
    exact hqp (Option.some.inj ((hl' c hcq).2.symm.trans (hl c hc).2))
  refine ⟨?_, hapart m (by simp)⟩
  rw [Mounted, hunlinked.children q hqp]
  exact hlq.congr fun c hc =>
    hunlinked.next c fun hbefore => hapart c (List.mem_append_left _ hbefore) hc

theorem MountTree.unlinked (h : MountTree v) {before after : List Nat} (hp : p ∈ v.live)
    (hlist : Mounted v p (before ++ m :: after)) (hunlinked : MountUnlinked v v' p before after) :
    MountTree v' ∧ ∀ q ∈ v.live, ∀ l, Mounted v' q l → m ∉ l := by
  have hlists : ∀ q ∈ v.live, ∃ l, Mounted v' q l ∧ m ∉ l ∧
      ∀ c ∈ l, c ∈ v.live ∧ (v.mounts c).parent = some q := by
    intro q hq
    obtain ⟨lq, hmountedq, hlq⟩ := h.mounted q hq
    by_cases hqp : q = p
    · subst hqp
      obtain rfl := Chain.unique hmountedq hlist
      have hsplit := hlist.ne_of_split
      refine ⟨before ++ after, hunlinked.mounted, fun hm => ?_, fun c hc => hlq c ?_⟩
      · rcases List.mem_append.mp hm with hm | hm
        · exact hsplit.1 m hm rfl
        · exact hsplit.2 m hm rfl
      · rw [List.mem_append] at hc ⊢
        exact hc.imp_right (List.mem_cons_of_mem m)
    · obtain ⟨hstay, hout⟩ := h.mounted_other hp hlist hunlinked hq hqp hmountedq
      exact ⟨lq, hstay, hout, hlq⟩
  refine ⟨⟨?_, fun q hq => ?_⟩, fun q hq lq hlq => ?_⟩
  · rw [hunlinked.root, hunlinked.live]
    exact h.root
  · rw [hunlinked.live] at hq
    obtain ⟨lq, hmountedq, -, hlq⟩ := hlists q hq
    refine ⟨lq, hmountedq, fun c hc => ?_⟩
    rw [hunlinked.live, hunlinked.parent]
    exact hlq c hc
  · obtain ⟨lq', hmountedq, hm, -⟩ := hlists q hq
    rwa [Chain.unique hlq hmountedq]

theorem MountTree.erase (h : MountTree v) (hroot : m ≠ v.root)
    (hm : ∀ q ∈ v.live, ∀ l, Mounted v q l → m ∉ l) :
    MountTree { v with live := v.live.erase m } := by
  refine ⟨Finset.mem_erase.mpr ⟨hroot.symm, h.root⟩, fun q hq => ?_⟩
  obtain ⟨l, hmounted, hl⟩ := h.mounted q (Finset.mem_of_mem_erase hq)
  refine ⟨l, hmounted, fun c hc => ⟨Finset.mem_erase.mpr ⟨fun heq => ?_, (hl c hc).1⟩, (hl c hc).2⟩⟩
  exact hm q (Finset.mem_of_mem_erase hq) l hmounted (heq ▸ hc)

/-- What `unmount_filesystem` does: it refuses the path, or takes the mount out of the
list of its parent. -/
theorem MountTree.unmount_cases (h : MountTree v) {res ret : Int}
    (hcall : unmountFilesystem walk fuel v path res = some (ret, v')) :
    (¬ Unmountable walk fuel v path ∧ ret < 0 ∧ v' = v) ∨
      (Unmountable walk fuel v path ∧ ∃ m p before after unlinked,
        (m ≠ v.root ∧ (v.mounts m).refcount ≤ 0 ∧ (v.mounts m).children = none) ∧ p ∈ v.live ∧
          Mounted v p (before ++ m :: after) ∧ MountUnlinked v unlinked p before after ∧
            ((res < 0 ∧ ret = res ∧ v' = unlinked) ∨
              (0 ≤ res ∧ ret = 0 ∧ v' = { unlinked with live := unlinked.live.erase m }))) := by
  rw [unmountFilesystem] at hcall
  obtain ⟨found, hfound, hcall⟩ := Option.bind_eq_some_iff.mp hcall
  cases found with
  | error err =>
      obtain ⟨rfl, rfl⟩ := Prod.mk.inj (Option.some.inj hcall)
      refine .inl ⟨?_, findMountpoint_neg hfound, rfl⟩
      rintro ⟨file, hfile, -⟩
      cases hfound.symm.trans hfile
  | ok file =>
      simp only at hcall
      split at hcall
      · rename_i hroot
        obtain ⟨rfl, rfl⟩ := Prod.mk.inj (Option.some.inj hcall)
        refine .inl ⟨?_, by decide, rfl⟩
        rintro ⟨file', hfile, hne, -⟩
        obtain rfl := Except.ok.inj (Option.some.inj (hfound.symm.trans hfile))
        exact hne hroot
      · rename_i hroot
        split at hcall
        · rename_i hbusy
          obtain ⟨rfl, rfl⟩ := Prod.mk.inj (Option.some.inj hcall)
          refine .inl ⟨?_, by decide, rfl⟩
          rintro ⟨file', hfile, -, hcount, hchildren⟩
          obtain rfl := Except.ok.inj (Option.some.inj (hfound.symm.trans hfile))
          rcases hbusy with hbusy | hbusy
          · exact absurd hcount (not_le.mpr hbusy)
          · exact hbusy hchildren
        · rename_i hbusy
          obtain ⟨hcount, hchildren⟩ := not_or.mp hbusy
          obtain ⟨-, htree⟩ := h.findMountpoint hfound
          obtain ⟨p, hp, hparent, l, hmounted, hmem⟩ := htree.resolve_left hroot
          obtain ⟨before, after, rfl⟩ := List.append_of_mem hmem
          simp only [hparent, Option.bind_eq_bind, Option.bind_some] at hcall
          obtain ⟨unlinked, hunlink, hcall⟩ := Option.bind_eq_some_iff.mp hcall
          refine .inr ⟨⟨file, hfound, hroot, not_lt.mp hcount, not_not.mp hchildren⟩,
            file.mountpoint, p, before, after, unlinked,
            ⟨hroot, not_lt.mp hcount, not_not.mp hchildren⟩, hp, hmounted,
            unlinkMount_spec hmounted hunlink, ?_⟩
          split at hcall
          · rename_i hres
            obtain ⟨rfl, rfl⟩ := Prod.mk.inj (Option.some.inj hcall)
            exact .inl ⟨hres, rfl, rfl⟩
          · rename_i hres
            obtain ⟨rfl, rfl⟩ := Prod.mk.inj (Option.some.inj hcall)
            exact .inr ⟨not_lt.mp hres, rfl, rfl⟩

theorem MountTree.unmountFilesystem (h : MountTree v) {res ret : Int}
    (hcall : unmountFilesystem walk fuel v path res = some (ret, v')) : MountTree v' := by
  rcases h.unmount_cases hcall with ⟨-, -, rfl⟩ |
    ⟨-, m, p, before, after, unlinked, ⟨hroot, -⟩, hp, hlist, hunlinked, hend⟩
  · exact h
  · obtain ⟨htree, hout⟩ := h.unlinked hp hlist hunlinked
    rcases hend with ⟨-, -, rfl⟩ | ⟨-, -, rfl⟩
    · exact htree
    · refine htree.erase (by rwa [hunlinked.root]) fun q hq l hl => ?_
      rw [hunlinked.live] at hq
      exact hout q hq l hl

/-- The tree of the root file system alone. -/
theorem onlyRoot_tree : MountTree onlyRoot := by
  refine ⟨Finset.mem_singleton_self 0, fun p hp => ⟨[], ?_, fun m hm => absurd hm List.not_mem_nil⟩⟩
  rw [Finset.mem_singleton.mp hp]
  rfl

/-- An error of `unmount_filesystem` leaves the tree as it was exactly when the path was
refused before the file system was asked. -/
theorem failed_unmount_unchanged_iff {res err : Int} (htree : MountTree v)
    (hcall : unmountFilesystem walk fuel v path res = some (err, v')) (herr : err < 0) :
    SameLinks v v' ↔ ¬ Unmountable walk fuel v path := by
  rcases htree.unmount_cases hcall with ⟨hrefused, -, rfl⟩ |
    ⟨hreached, m, p, before, after, unlinked, -, -, hlist, hunlinked, hend⟩
  · exact iff_of_true (SameLinks.refl _) hrefused
  · refine iff_of_false ?_ (not_not.mpr hreached)
    rcases hend with ⟨-, -, rfl⟩ | ⟨-, rfl, -⟩
    · exact hunlinked.not_sameLinks hlist
    · exact absurd herr (lt_irrefl 0)

def mountedOnce : MountTable := linkMount onlyRoot 1 0 5 1

theorem mountedOnce_tree : MountTree mountedOnce :=
  onlyRoot_tree.linkMount (by decide) (by decide)

/-- The root file system is not unmounted, and stays. -/
theorem failed_unmount_root :
    SameLinks mountedOnce mountedOnce ↔ ¬ Unmountable fiveIsMnt 1 mountedOnce [] := by
  have hcall : unmountFilesystem fiveIsMnt 1 mountedOnce [] 0 = some (eInval, mountedOnce) := rfl
  exact failed_unmount_unchanged_iff mountedOnce_tree hcall (by decide)

/-- The file system fails to unmount, and its mount is gone from the list. -/
theorem failed_unmount_unlinks :
    MountTree mountedOnce ∧ ∃ v', unmountFilesystem fiveIsMnt 1 mountedOnce ["mnt"] eIo =
      some (eIo, v') ∧ eIo < 0 ∧ (mountedOnce.mounts 0).children = some 1 ∧
        (v'.mounts 0).children = none ∧ ¬ SameLinks mountedOnce v' := by
  refine ⟨mountedOnce_tree, _, rfl, by decide, rfl, rfl, fun hsame => ?_⟩
  cases (hsame 0).2.1

end GlitchedOS
