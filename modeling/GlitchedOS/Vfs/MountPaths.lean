/-
The mounts that are reached from the root file system.  Each of them is reached along
one path only, so that they are a tree; mounting adds a leaf to it, and unmounting takes
one out.
-/
import GlitchedOS.Vfs.Unmount

namespace GlitchedOS

variable {v v' : MountTable} {walk : WalkEnv} {fuel : Nat} {p m : Nat} {above above' : List Nat}

/-- The mounts above `m`, up to the root file system. -/
inductive MountPath (v : MountTable) : List Nat → Nat → Prop
  | root : MountPath v [] v.root
  | child {above : List Nat} {p m : Nat} {l : List Nat} (h : MountPath v above p)
      (hl : Mounted v p l) (hm : m ∈ l) : MountPath v (p :: above) m

/-- The mount is reached from the root file system through the lists. -/
def Reached (v : MountTable) (m : Nat) : Prop := ∃ above, MountPath v above m

theorem MountPath.of_lists (h : MountPath v above m) (hroot : v'.root = v.root)
    (hlists : ∀ p l, Mounted v p l → Mounted v' p l) : MountPath v' above m := by
  induction h with
  | root => exact hroot ▸ .root
  | child _ hl hm ih => exact ih.child (hlists _ _ hl) hm

/-- The mounts in memory are a tree, and nothing is above the root file system. -/
structure RootedTree (v : MountTable) : Prop where
  tree : MountTree v
  parent : (v.mounts v.root).parent = none

/-- The mounts that are reached from the root are a finite tree: they are in memory, each
has one place, and the list of a mount holds those that point back to it, once each. -/
structure MountsOrdered (v : MountTable) : Prop where
  live : ∀ m, Reached v m → m ∈ v.live
  once : ∀ m above above', MountPath v above m → MountPath v above' m → above = above'
  listed : ∀ p, Reached v p → ∃ l, Mounted v p l ∧ l.Nodup ∧
    ∀ m, m ∈ l ↔ Reached v m ∧ (v.mounts m).parent = some p

namespace RootedTree

theorem listed (h : RootedTree v) {l : List Nat} (hp : p ∈ v.live) (hl : Mounted v p l)
    (hm : m ∈ l) : m ∈ v.live ∧ (v.mounts m).parent = some p := by
  obtain ⟨l', hl', hmem⟩ := h.tree.mounted p hp
  obtain rfl := Chain.unique hl hl'
  exact hmem m hm

theorem mem_live (h : RootedTree v) (hpath : MountPath v above m) : m ∈ v.live := by
  induction hpath with
  | root => exact h.tree.root
  | child _ hl hm ih => exact (h.listed ih hl hm).1

/-- A mount is reached along one path, from the root or from its parent. -/
theorem path_unique (h : RootedTree v) (hpath : MountPath v above m)
    (hpath' : MountPath v above' m) : above = above' := by
  induction hpath generalizing above' with
  | root =>
      cases hpath' with
      | root => rfl
      | child hp hl hm =>
          have hparent := (h.listed (h.mem_live hp) hl hm).2
          cases h.parent.symm.trans hparent
  | child hp hl hm ih =>
      have hparent := (h.listed (h.mem_live hp) hl hm).2
      cases hpath' with
      | root => cases h.parent.symm.trans hparent
      | child hp' hl' hm' =>
          have hparent' := (h.listed (h.mem_live hp') hl' hm').2
          obtain rfl := Option.some.inj (hparent.symm.trans hparent')
          rw [ih hp']

theorem ordered (h : RootedTree v) : MountsOrdered v where
  live := fun _ ⟨_, hpath⟩ => h.mem_live hpath
  once := fun _ _ _ => h.path_unique
  listed := fun p ⟨above, hp⟩ => by
    obtain ⟨l, hl, hmem⟩ := h.tree.mounted p (h.mem_live hp)
    refine ⟨l, hl, Chain.nodup hl, fun m => ⟨fun hm => ⟨⟨_, hp.child hl hm⟩, (hmem m hm).2⟩, ?_⟩⟩
    rintro ⟨⟨above', hm⟩, hparent⟩
    cases hm with
    | root => cases h.parent.symm.trans hparent
    | child hq hlq hm =>
        obtain rfl := Option.some.inj ((h.listed (h.mem_live hq) hlq hm).2.symm.trans hparent)
        exact Chain.unique hlq hl ▸ hm

theorem crossMount (h : RootedTree v) {current handle : Nat} {next : FileHandle}
    (hcurrent : Reached v current)
    (hnext : crossMount walk fuel v current handle = some next) : Reached v next.mountpoint := by
  rw [GlitchedOS.crossMount] at hnext
  split at hnext
  · obtain rfl := Option.some.inj hnext
    exact hcurrent
  · rename_i first hfirst
    obtain ⟨found, hfound, rfl⟩ := Option.map_eq_some_iff.mp hnext
    cases found with
    | none => exact hcurrent
    | some m =>
        obtain ⟨above, hpath⟩ := hcurrent
        obtain ⟨l, hl, -⟩ := h.tree.mounted current (h.mem_live hpath)
        exact ⟨_, .child hpath hl (Mounted.mem_coveringMount hl hfirst hfound)⟩

theorem findMountpoint (h : RootedTree v) {path : List String} {file : FileHandle}
    (hfind : findMountpoint walk fuel v path = some (.ok file)) : Reached v file.mountpoint := by
  have hwalk : ∀ {path : List String} {at_ file : FileHandle}, Reached v at_.mountpoint →
      walkPath walk fuel v path at_ = some (.ok file) → Reached v file.mountpoint := by
    intro path
    induction path with
    | nil =>
        intro at_ file hat hwalk
        obtain rfl := Except.ok.inj (Option.some.inj hwalk)
        exact hat
    | cons name rest ih =>
        intro at_ file hat hwalk
        rw [walkPath] at hwalk
        split at hwalk
        · cases hwalk
        · obtain ⟨next, hnext, hwalk⟩ := Option.bind_eq_some_iff.mp hwalk
          exact ih (h.crossMount hat hnext) hwalk
  have hstart : Reached v (⟨v.root, walk.getRoot v.root⟩ : FileHandle).mountpoint := ⟨[], .root⟩
  exact hwalk hstart hfind

end RootedTree

/-- The links are the same, and the memory. -/
structure SameMounts (v v' : MountTable) : Prop where
  live : v'.live = v.live
  root : v'.root = v.root
  links : SameLinks v v'

namespace SameMounts

theorem refl (v : MountTable) : SameMounts v v := ⟨rfl, rfl, .refl v⟩

theorem trans {v'' : MountTable} (h : SameMounts v v') (h' : SameMounts v' v'') :
    SameMounts v v'' where
  live := h'.live.trans h.live
  root := h'.root.trans h.root
  links := fun m => ⟨(h'.links m).1.trans (h.links m).1,
    (h'.links m).2.1.trans (h.links m).2.1, (h'.links m).2.2.trans (h.links m).2.2⟩

theorem acquire (v : MountTable) (m : Nat) : SameMounts v (v.acquire m) :=
  ⟨rfl, rfl, v.modify_refcount m (· + 1)⟩

theorem release (v : MountTable) (m : Nat) : SameMounts v (v.release m) :=
  ⟨rfl, rfl, v.modify_refcount m (· - 1)⟩

theorem mounted (h : SameMounts v v') {l : List Nat} (hl : Mounted v p l) : Mounted v' p l := by
  rw [Mounted, (h.links p).2.1]
  exact hl.congr fun m _ => (h.links m).2.2

theorem reached (h : SameMounts v v') (hm : Reached v m) : Reached v' m := by
  obtain ⟨above, hpath⟩ := hm
  exact ⟨above, hpath.of_lists h.root fun _ _ hl => h.mounted hl⟩

theorem rooted (h : SameMounts v v') (hrooted : RootedTree v) : RootedTree v' where
  tree := hrooted.tree.of_links h.live h.root h.links
  parent := by
    rw [(h.links v'.root).1, h.root]
    exact hrooted.parent

end SameMounts

/-- What the mounts are after `mount_filesystem` or `unmount_filesystem`: only a mount
that has neither files nor mounts on it goes. -/
structure MountsKept (v v' : MountTable) : Prop where
  rooted : RootedTree v'
  reached : ∀ m, Reached v m → 0 < (v.mounts m).refcount → Reached v' m
  refcount : ∀ m ∈ v.live, (v'.mounts m).refcount = (v.mounts m).refcount
  fresh : ∀ m, m ∉ v.live →
    (v'.mounts m).refcount = (v.mounts m).refcount ∨ (v'.mounts m).refcount = 0

theorem MountsKept.refl (h : RootedTree v) : MountsKept v v :=
  ⟨h, fun _ hm _ => hm, fun _ _ => rfl, fun _ _ => .inl rfl⟩

theorem RootedTree.linkMount (h : RootedTree v) {new parent handle type : Nat} (hnew : new ∉ v.live)
    (hparent : parent ∈ v.live) : MountsKept v (linkMount v new parent handle type) := by
  have hcount : ∀ m, m ≠ new →
      ((GlitchedOS.linkMount v new parent handle type).mounts m).refcount =
        (v.mounts m).refcount := by
    intro m hm
    simp only [GlitchedOS.linkMount, MountTable.modify_mounts, Function.update_apply]
    split <;> simp_all
  have hnewParent : new ≠ parent := fun heq => hnew (heq ▸ hparent)
  have hreached : ∀ {m above}, MountPath v above m →
      MountPath (GlitchedOS.linkMount v new parent handle type) above m := by
    intro m above hpath
    induction hpath with
    | root => exact .root
    | child hp hl hm ih =>
        refine ih.child (h.tree.mounted_linkMount hnew hparent (h.mem_live hp) hl) ?_
        split
        · exact List.mem_cons_of_mem new hm
        · exact hm
  refine ⟨⟨h.tree.linkMount hnew hparent, ?_⟩, fun m hm _ => hm.imp fun _ => hreached,
    fun m hm => ?_, fun m hm => ?_⟩
  · refine (linkMount_of_ne ?_).1.trans h.parent
    exact fun heq => hnew (heq ▸ h.tree.root)
  · exact hcount m fun heq => hnew (heq ▸ hm)
  · by_cases heq : m = new
    · subst heq
      right
      simp [GlitchedOS.linkMount, MountTable.modify_mounts, hnewParent]
    · exact .inl (hcount m heq)

theorem RootedTree.mountFilesystem (h : RootedTree v) {env : MountEnv} {path : List String}
    {new : Nat} {ret : Int} (hnew : new ∉ v.live)
    (hcall : mountFilesystem env walk fuel v path new = some (ret, v')) : MountsKept v v' := by
  rw [GlitchedOS.mountFilesystem] at hcall
  split at hcall
  · obtain ⟨-, rfl⟩ := Prod.mk.inj (Option.some.inj hcall)
    exact .refl h
  · obtain ⟨found, hfound, hcall⟩ := Option.bind_eq_some_iff.mp hcall
    cases found with
    | error err =>
        obtain ⟨-, rfl⟩ := Prod.mk.inj (Option.some.inj hcall)
        exact .refl h
    | ok file =>
        simp only at hcall
        split at hcall
        · obtain ⟨-, rfl⟩ := Prod.mk.inj (Option.some.inj hcall)
          exact .refl h
        · split at hcall
          · obtain ⟨-, rfl⟩ := Prod.mk.inj (Option.some.inj hcall)
            exact .refl h
          · obtain ⟨-, rfl⟩ := Prod.mk.inj (Option.some.inj hcall)
            obtain ⟨above, hpath⟩ := h.findMountpoint hfound
            exact h.linkMount hnew (h.mem_live hpath)

/-- A mount without mounts on it is taken out of the list of its parent. -/
theorem RootedTree.unlinked (h : RootedTree v) {before after : List Nat} (hp : p ∈ v.live)
    (hlist : Mounted v p (before ++ m :: after)) (hunlinked : MountUnlinked v v' p before after)
    (hchildren : (v.mounts m).children = none) {q : Nat} (hq : Reached v q) (hqm : q ≠ m) :
    Reached v' q := by
  obtain ⟨above, hpath⟩ := hq
  refine ⟨above, ?_⟩
  induction hpath with
  | root => exact hunlinked.root ▸ .root
  | @child above p' q l hp' hl hq ih =>
      have hp'm : p' ≠ m := by
        rintro rfl
        obtain rfl : l = [] := Chain.unique hl (show (v.mounts p').children = none from hchildren)
        exact absurd hq List.not_mem_nil
      by_cases hpp : p' = p
      · subst hpp
        refine (ih hp'm).child hunlinked.mounted ?_
        obtain rfl := Chain.unique hl hlist
        rcases List.mem_append.mp hq with hq | hq
        · exact List.mem_append_left _ hq
        · exact List.mem_append_right _ ((List.mem_cons.mp hq).resolve_left hqm)
      · exact (ih hp'm).child (h.tree.mounted_other hp hlist hunlinked (h.mem_live hp') hpp hl).1 hq

theorem RootedTree.unmountFilesystem (h : RootedTree v) {path : List String} {res ret : Int}
    (hcall : unmountFilesystem walk fuel v path res = some (ret, v')) : MountsKept v v' := by
  rcases h.tree.unmount_cases hcall with ⟨-, -, rfl⟩ |
    ⟨-, m, p, before, after, unlinked, ⟨hroot, hcount, hchildren⟩, hp, hlist, hunlinked, hend⟩
  · exact .refl h
  have htree := h.tree.unmountFilesystem hcall
  have hparent : (unlinked.mounts unlinked.root).parent = none := by
    rw [hunlinked.parent, hunlinked.root]
    exact h.parent
  have hreached : ∀ q, Reached v q → 0 < (v.mounts q).refcount → Reached unlinked q :=
    fun q hq hused => h.unlinked hp hlist hunlinked hchildren hq fun heq =>
      absurd (heq ▸ hused) (not_lt.mpr hcount)
  rcases hend with ⟨-, -, rfl⟩ | ⟨-, -, rfl⟩
  · exact ⟨⟨htree, hparent⟩, hreached, fun q _ => hunlinked.refcount q,
      fun q _ => .inl (hunlinked.refcount q)⟩
  · refine ⟨⟨htree, hparent⟩, fun q hq hused => ?_, fun q _ => hunlinked.refcount q,
      fun q _ => .inl (hunlinked.refcount q)⟩
    obtain ⟨above, hpath⟩ := hreached q hq hused
    exact ⟨above, hpath.of_lists rfl fun _ _ hl => hl⟩

theorem coveringMount_mono {first handle n n' : Nat} {found : Option Nat} (hle : n ≤ n')
    (h : coveringMount v first handle n m = some found) :
    coveringMount v first handle n' m = some found := by
  induction n generalizing m n' with
  | zero => cases h
  | succ n ih =>
      obtain ⟨n', rfl⟩ := Nat.exists_eq_succ_of_ne_zero (by omega : n' ≠ 0)
      rw [coveringMount] at h ⊢
      split
      · rw [if_pos ‹_›] at h
        exact h
      · rw [if_neg ‹_›] at h
        split
        · rename_i hlast
          rw [hlast] at h
          exact h
        · rename_i next hnext
          rw [hnext] at h
          dsimp only at h
          split
          · rw [if_pos ‹_›] at h
            exact h
          · rw [if_neg ‹_›] at h
            exact ih (by omega) h

theorem crossMount_mono {fuel' current handle : Nat} {next : FileHandle} (hle : fuel ≤ fuel')
    (h : crossMount walk fuel v current handle = some next) :
    crossMount walk fuel' v current handle = some next := by
  rw [crossMount] at h ⊢
  split
  · rename_i hnone
    rw [hnone] at h
    exact h
  · rename_i first hfirst
    rw [hfirst] at h
    obtain ⟨found, hfound, rfl⟩ := Option.map_eq_some_iff.mp h
    rw [coveringMount_mono hle hfound]
    rfl

theorem findMountpoint_mono {fuel' : Nat} {path : List String} {found : Except Int FileHandle}
    (hle : fuel ≤ fuel') (h : findMountpoint walk fuel v path = some found) :
    findMountpoint walk fuel' v path = some found := by
  rw [findMountpoint] at h ⊢
  generalize (⟨v.root, walk.getRoot v.root⟩ : FileHandle) = at_ at h ⊢
  induction path generalizing at_ with
  | nil => exact h
  | cons name rest ih =>
      rw [walkPath] at h ⊢
      split
      · rename_i err hlookup
        rw [hlookup] at h
        exact h
      · rename_i handle hlookup
        rw [hlookup] at h
        obtain ⟨next, hnext, h⟩ := Option.bind_eq_some_iff.mp h
        exact Option.bind_eq_some_iff.mpr ⟨next, crossMount_mono hle hnext, ih next h⟩

theorem unlinkLoop_ends {l : List Nat} {start : Option Nat} {n : Nat} (hn : l.length ≤ n)
    (h : Chain (fun m => (v.mounts m).next) start l) : ∃ v', unlinkLoop v m n start = some v' := by
  induction l generalizing start n with
  | nil =>
      obtain rfl : start = none := h
      cases n <;> exact ⟨v, rfl⟩
  | cons s rest ih =>
      obtain ⟨rfl, htail⟩ := h
      rw [List.length_cons] at hn
      obtain ⟨n, rfl⟩ := Nat.exists_eq_succ_of_ne_zero (by omega : n ≠ 0)
      rw [unlinkLoop]
      split
      · exact ⟨_, rfl⟩
      · exact ih (by omega) htail

/-- A mount with neither files nor mounts on it is for the file system to refuse. -/
theorem RootedTree.unmounts (h : RootedTree v) {path : List String}
    (hcan : Unmountable walk fuel v path) (res : Int) :
    ∃ more v', GlitchedOS.unmountFilesystem walk more v path res =
      some (if res < 0 then res else 0, v') := by
  obtain ⟨file, hfind, hroot, hcount, hchildren⟩ := hcan
  obtain ⟨-, htree⟩ := h.tree.findMountpoint hfind
  obtain ⟨p, hp, hparent, l, hl, -⟩ := htree.resolve_left hroot
  have hunlink : ∃ v', unlinkMount (max fuel l.length) v file.mountpoint p = some v' := by
    rw [unlinkMount]
    split
    · exact ⟨_, rfl⟩
    · exact unlinkLoop_ends (Nat.le_max_right _ _) hl
  obtain ⟨v₁, hv₁⟩ := hunlink
  let freed : MountTable := { v₁ with live := v₁.live.erase file.mountpoint }
  refine ⟨max fuel l.length, if res < 0 then v₁ else freed, ?_⟩
  have hfree : ¬(0 < (v.mounts file.mountpoint).refcount ∨
      (v.mounts file.mountpoint).children ≠ none) :=
    not_or.mpr ⟨not_lt.mpr hcount, not_not.mpr hchildren⟩
  rw [GlitchedOS.unmountFilesystem, findMountpoint_mono (Nat.le_max_left _ _) hfind]
  simp only [Option.bind_eq_bind, Option.bind_some, if_neg hroot, if_neg hfree, hparent, hv₁]
  split <;> rfl

end GlitchedOS
