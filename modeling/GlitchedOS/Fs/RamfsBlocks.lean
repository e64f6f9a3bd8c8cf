/-
The blocks of a file in the memory of a ramfs.  What the functions do with pointers is what
they do with the list of the contents, and all memory that they take or give back is
accounted for.
-/
import GlitchedOS.Fs.RamfsMemory
import GlitchedOS.Fs.RamfsBytes

namespace GlitchedOS

namespace RamfsMemory

/-- The blocks from a first one on, in order. -/
structure BlockList (m : RamfsMemory) (first : Option Nat) (l : List Nat) : Prop where
  chain : Chain (fun a => (m.blocks a).next) first l
  live : ∀ a ∈ l, m.Live a

def contents (m : RamfsMemory) (l : List Nat) : List (List UInt8) :=
  l.map fun a => (m.blocks a).data

/-- The rounds of the loop of `ramfs_truncate` that adds blocks. -/
def growRounds (first : Option Nat) (difference : Nat) : Nat :=
  if first = none then difference - 1 else difference

/-- New blocks stand behind those of a list, and nothing outside of it has changed. -/
structure Extended (m m' : RamfsMemory) (l l' : List Nat) : Prop where
  added : l' = l ++ List.range' m.given (m'.given - m.given)
  given : m.given ≤ m'.given
  freed : m'.freed = m.freed
  frame : ∀ a, a < m.given → a ∉ l → m'.blocks a = m.blocks a

variable {m m' m'' : RamfsMemory} {first : Option Nat} {l l' l'' : List Nat} {a b i n : Nat}
  {f : RamfsData → RamfsData}

/-! ### Memory -/

theorem load_of_live (ha : m.Live a) : m.load a = some (m.blocks a) := if_pos ha

theorem store_of_live (ha : m.Live a) (f : RamfsData → RamfsData) :
    m.store a f =
      some { m with blocks := Function.update m.blocks a (f (m.blocks a)) } := if_pos ha

theorem live_kmalloc (ha : m.Live a) : m.kmalloc.2.Live a :=
  ⟨Nat.lt_succ_of_lt ha.1, ha.2⟩

theorem live_given : m.kmalloc.2.Live m.given :=
  ⟨Nat.lt_succ_self _, fun hfreed => Nat.lt_irrefl _ (m.freed_lt _ hfreed)⟩

theorem kmalloc_blocks (ha : a ≠ m.given) : m.kmalloc.2.blocks a = m.blocks a :=
  Function.update_of_ne ha _ _

theorem kmalloc_given : m.kmalloc.2.blocks m.given = ⟨zeroBlock, none⟩ :=
  Function.update_self ..

@[simp] theorem length_contents (m : RamfsMemory) (l : List Nat) :
    (m.contents l).length = l.length := List.length_map _

theorem contents_append (m : RamfsMemory) (l l' : List Nat) :
    m.contents (l ++ l') = m.contents l ++ m.contents l' := List.map_append

theorem contents_update (hnodup : l.Nodup) (ha : l[i]? = some a) {block : RamfsData}
    {g : List UInt8 → List UInt8} (hdata : block.data = g (m.blocks a).data)
    (hm : m'.blocks = Function.update m.blocks a block) :
    m'.contents l = (m.contents l).modify i g := by
  have hlt : i < l.length := (List.getElem?_eq_some_iff.mp ha).1
  refine List.ext_getElem? fun j => ?_
  by_cases hij : i = j
  · subst hij
    rw [List.getElem?_modify_eq, contents, contents, List.getElem?_map, List.getElem?_map, ha, hm,
      Option.map_some, Function.update_self, hdata]
    rfl
  · rw [List.getElem?_modify_ne _ _ hij, contents, contents, List.getElem?_map, List.getElem?_map]
    cases hj : l[j]? with
    | none => rfl
    | some b =>
        have hne : b ≠ a := by
          rintro rfl
          exact hij ((List.getElem?_inj hlt hnodup).mp (ha.trans hj.symm))
        rw [Option.map_some, Option.map_some, hm, Function.update_of_ne hne]

namespace Extended

theorem refl (m : RamfsMemory) (l : List Nat) : Extended m m l l where
  added := by rw [Nat.sub_self, List.range'_zero, List.append_nil]
  given := Nat.le_refl _
  freed := rfl
  frame _ _ _ := rfl

theorem length_le (h : Extended m m' l l') : l.length ≤ l'.length := by
  rw [h.added, List.length_append]
  exact Nat.le_add_right ..

theorem trans (h : Extended m m' l l') (h' : Extended m' m'' l' l'') : Extended m m'' l l'' where
  added := by
    have hgiven := h.given
    have hgiven' := h'.given
    rw [h'.added, h.added, List.append_assoc]
    refine congrArg (l ++ ·) ?_
    rw [show m''.given - m.given = (m'.given - m.given) + (m''.given - m'.given) by omega,
      ← List.range'_append_1, show m.given + (m'.given - m.given) = m'.given by omega]
  given := Nat.le_trans h.given h'.given
  freed := h'.freed.trans h.freed
  frame a ha hout := by
    have hout' : a ∉ l' := by
      rw [h.added, List.mem_append]
      rintro (hmem | hmem)
      · exact hout hmem
      · have hle := (List.mem_range'_1.mp hmem).1
        omega
    exact (h'.frame a (Nat.lt_of_lt_of_le ha h.given) hout').trans (h.frame a ha hout)

end Extended

namespace BlockList

theorem nodup (h : m.BlockList first l) : l.Nodup := h.chain.nodup

theorem live_of_getElem? (h : m.BlockList first l) (ha : l[i]? = some a) : m.Live a :=
  h.live a (List.mem_of_getElem? ha)

theorem next_eq (h : m.BlockList first l) (ha : l[i]? = some a) :
    (m.blocks a).next = l[i + 1]? :=
  (Chain.iff_getElem?.mp h.chain).2 i a ha

/-- A list lies as it is in memory where its blocks are the same. -/
theorem congr (h : m.BlockList first l) (hblocks : ∀ a ∈ l, m'.blocks a = m.blocks a)
    (hlive : ∀ a ∈ l, m'.Live a) : m'.BlockList first l where
  chain := h.chain.congr fun a ha => congrArg RamfsData.next (hblocks a ha)
  live := hlive

theorem store (h : m.BlockList first l) (ha : l[i]? = some a) {g : List UInt8 → List UInt8}
    (hf : ∀ block, (f block).data = g block.data ∧ (f block).next = block.next) :
    ∃ m', m.store a f = some m' ∧ m'.BlockList first l ∧ Extended m m' l l ∧
      m'.contents l = (m.contents l).modify i g ∧ m'.given = m.given := by
  refine ⟨_, store_of_live (h.live_of_getElem? ha) f, ⟨?_, h.live⟩, ⟨?_, Nat.le_refl _, rfl, ?_⟩,
    contents_update h.nodup ha (hf _).1 rfl, rfl⟩
  · refine h.chain.congr fun b hb => ?_
    change (Function.update m.blocks a (f (m.blocks a)) b).next = (m.blocks b).next
    by_cases hba : b = a
    · subst hba
      rw [Function.update_self]
      exact (hf _).2
    · rw [Function.update_of_ne hba]
  · rw [Nat.sub_self, List.range'_zero, List.append_nil]
  · intro b hb hout
    have hba : b ≠ a := fun heq => hout (heq ▸ List.mem_of_getElem? ha)
    exact Function.update_of_ne hba _ _

theorem push (h : m.BlockList first l) (ha : l[i]? = some a) (hlast : l.length = i + 1) :
    ∃ m', (m.kmalloc.2.store a fun block => { block with next := some m.given }) = some m' ∧
      m'.BlockList first (l ++ [m.given]) ∧ Extended m m' l (l ++ [m.given]) ∧
      m'.contents (l ++ [m.given]) = m.contents l ++ [zeroBlock] := by
  have hlive := h.live_of_getElem? ha
  have hne : m.given ≠ a := (Nat.ne_of_lt hlive.1).symm
  have hgetLast : l.getLast? = some a := by
    rw [List.getLast?_eq_getElem?, hlast, Nat.add_sub_cancel, ha]
  have hsplit : l.dropLast ++ [a] = l := List.dropLast_append_getLast? a hgetLast
  let block : RamfsData := { m.kmalloc.2.blocks a with next := some m.given }
  have hother : ∀ b ∈ l.dropLast, Function.update m.kmalloc.2.blocks a block b = m.blocks b := by
    intro b hb
    have hchain := h.chain
    rw [← hsplit] at hchain
    rw [Function.update_of_ne (hchain.ne_of_split.1 b hb),
      kmalloc_blocks (Nat.ne_of_lt (h.live b (List.dropLast_subset l hb)).1)]
  have hself : Function.update m.kmalloc.2.blocks a block a = block := Function.update_self ..
  have hnew : Function.update m.kmalloc.2.blocks a block m.given = ⟨zeroBlock, none⟩ := by
    rw [Function.update_of_ne hne, kmalloc_given]
  refine ⟨_, store_of_live (live_kmalloc hlive) _, ⟨?_, ?_⟩, ⟨?_, Nat.le_succ _, rfl, ?_⟩, ?_⟩
  · have hchain := h.chain
    rw [← hsplit] at hchain ⊢
    rw [List.append_assoc]
    refine hchain.insert_after (congrArg RamfsData.next hself) ?_ fun b hb => ?_
    · exact (congrArg RamfsData.next hnew).trans (Chain.suffix hchain).symm
    · rw [List.append_nil] at hb
      exact congrArg RamfsData.next (hother b hb)
  · intro b hb
    rcases List.mem_append.mp hb with hb | hb
    · exact live_kmalloc (h.live b hb)
    · exact List.mem_singleton.mp hb ▸ live_given
  · have hone : m.given + 1 - m.given = 1 := Nat.add_sub_cancel_left ..
    exact congrArg (fun k => l ++ List.range' m.given k) hone.symm
  · intro b hb hout
    have hba : b ≠ a := fun heq => hout (heq ▸ List.mem_of_getElem? ha)
    exact (Function.update_of_ne hba _ _).trans (kmalloc_blocks (Nat.ne_of_lt hb))
  · have hdata : ∀ b ∈ l, (Function.update m.kmalloc.2.blocks a block b).data =
        (m.blocks b).data := by
      intro b hb
      rw [← hsplit] at hb
      rcases List.mem_append.mp hb with hb | hb
      · rw [hother b hb]
      · obtain rfl := List.mem_singleton.mp hb
        rw [hself]
        change (m.kmalloc.2.blocks b).data = (m.blocks b).data
        rw [kmalloc_blocks hne.symm]
    rw [contents_append]
    have hlast : [(Function.update m.kmalloc.2.blocks a block m.given).data] = [zeroBlock] := by
      rw [hnew]
    exact congrArg₂ (· ++ ·) (List.map_congr_left hdata) hlast

/-- `next` of a block, with a new block where there is none. -/
theorem nextOrNew (h : m.BlockList first l) (ha : l[i]? = some a) :
    ∃ b m' l', m.nextOrNew a = some (b, m') ∧ m'.BlockList first l' ∧ Extended m m' l l' ∧
      l'[i + 1]? = some b ∧
      m'.contents l' = if i + 1 < l.length then m.contents l else m.contents l ++ [zeroBlock] := by
  have hload := load_of_live (h.live_of_getElem? ha)
  have hnext := h.next_eq ha
  have hlt := (List.getElem?_eq_some_iff.mp ha).1
  by_cases hmore : i + 1 < l.length
  · rw [List.getElem?_eq_getElem hmore] at hnext
    refine ⟨l[i + 1], m, l, ?_, h, .refl m l, List.getElem?_eq_getElem hmore, (if_pos hmore).symm⟩
    rw [RamfsMemory.nextOrNew, hload, Option.bind_eq_bind, Option.bind_some, hnext]
  · have hlast : l.length = i + 1 := Nat.le_antisymm (Nat.le_of_not_lt hmore) hlt
    obtain ⟨m', hstore, hlist, hext, hcontents⟩ := h.push ha hlast
    rw [List.getElem?_eq_none (Nat.le_of_not_lt hmore)] at hnext
    refine ⟨m.given, m', _, ?_, hlist, hext, ?_, ?_⟩
    · rw [RamfsMemory.nextOrNew, hload, Option.bind_eq_bind, Option.bind_some, hnext]
      change (m.kmalloc.2.store a _).bind _ = _
      rw [hstore]
      rfl
    · rw [← hlast, List.getElem?_append_right (Nat.le_refl _), Nat.sub_self]
      rfl
    · rw [hcontents, if_neg hmore]

theorem kmalloc (h : m.BlockList none l) :
    l = [] ∧ m.kmalloc.2.BlockList (some m.given) [m.given] ∧
      Extended m m.kmalloc.2 l [m.given] ∧ m.kmalloc.2.contents [m.given] = [zeroBlock] := by
  have hnil : l = [] := by
    cases l with
    | nil => rfl
    | cons a rest => cases h.chain.1
  subst hnil
  have hnew := m.kmalloc_given
  refine ⟨rfl, ⟨⟨rfl, congrArg RamfsData.next hnew⟩, ?_⟩, ⟨?_, Nat.le_succ _, rfl, ?_⟩, ?_⟩
  · intro a ha
    exact List.mem_singleton.mp ha ▸ live_given
  · have hone : m.given + 1 - m.given = 1 := Nat.add_sub_cancel_left ..
    exact congrArg (fun k => [] ++ List.range' m.given k) hone.symm
  · exact fun a ha _ => kmalloc_blocks (Nat.ne_of_lt ha)
  · rw [contents, List.map_singleton, hnew]

/-- Skipping adds the blocks that are missing. -/
theorem skipBlocks (h : m.BlockList first l) (ha : l[i]? = some a) (n : Nat) :
    ∃ b m' l', RamfsMemory.skipBlocks n m a = some (b, m') ∧ m'.BlockList first l' ∧
      Extended m m' l l' ∧ l'[i + n]? = some b ∧
      m'.contents l' = m.contents l ++ List.replicate (i + n + 1 - l.length) zeroBlock := by
  induction n generalizing m l a i with
  | zero =>
      have hlt := (List.getElem?_eq_some_iff.mp ha).1
      refine ⟨a, m, l, rfl, h, .refl m l, ha, ?_⟩
      rw [Nat.add_zero, Nat.sub_eq_zero_of_le hlt, List.replicate_zero, List.append_nil]
  | succ n ih =>
      have hlt := (List.getElem?_eq_some_iff.mp ha).1
      obtain ⟨b, m₁, l₁, hnext, hlist, hext, hb, hcontents⟩ := h.nextOrNew ha
      obtain ⟨c, m', l', hskip, hlist', hext', hc, hcontents'⟩ := ih hlist hb
      rw [Nat.add_right_comm] at hc
      refine ⟨c, m', l', ?_, hlist', hext.trans hext', hc, ?_⟩
      · rw [RamfsMemory.skipBlocks, hnext]
        exact hskip
      · have hlength := congrArg List.length hcontents
        rw [hcontents', hcontents]
        split at hlength
        next hmore =>
          rw [length_contents, length_contents] at hlength
          rw [if_pos hmore, hlength]
          congr 2
          omega
        next hmore =>
          rw [length_contents, List.length_append, length_contents,
            List.length_singleton] at hlength
          rw [if_neg hmore, List.append_assoc, hlength,
            show i + (n + 1) + 1 - l.length = (i + 1 + n + 1 - (l.length + 1)) + 1 by omega,
            List.replicate_succ]
          rfl

theorem fillBlocks (h : m.BlockList first l) (ha : l[i]? = some a) (blockOffset : Nat)
    (buffer : List UInt8) :
    ∃ m' l', m.fillBlocks a blockOffset buffer = some m' ∧ m'.BlockList first l' ∧
      Extended m m' l l' ∧
      m'.contents l' = Ramfs.writeBlocks (m.contents l) i blockOffset buffer := by
  induction hn : buffer.length using Nat.strong_induction_on generalizing m l a i blockOffset buffer
    with
  | _ n ih =>
  subst hn
  rw [RamfsMemory.fillBlocks, Ramfs.writeBlocks]
  by_cases hdone : buffer = [] ∨ ramfsBlockSize ≤ blockOffset
  · rw [if_pos hdone, if_pos hdone]
    exact ⟨m, l, rfl, h, .refl m l, rfl⟩
  · rw [if_neg hdone, if_neg hdone]
    rw [not_or] at hdone
    have hpos := List.length_pos_iff.mpr hdone.1
    dsimp only
    generalize htoWrite : min (ramfsBlockSize - blockOffset) buffer.length = toWrite
    obtain ⟨m₁, hstore, hlist₁, hext₁, hcontents₁, -⟩ := h.store ha
      (f := fun block => { block with
        data := block.data.take blockOffset ++ buffer.take toWrite ++
          block.data.drop (blockOffset + toWrite) })
      (g := fun data => data.take blockOffset ++ buffer.take toWrite ++
        data.drop (blockOffset + toWrite)) fun block => ⟨rfl, rfl⟩
    obtain ⟨b, m₂, l₂, hnext, hlist₂, hext₂, hb, hcontents₂⟩ := hlist₁.nextOrNew ha
    obtain ⟨m', l', hfill, hlist', hext', hcontents'⟩ := ih (buffer.drop toWrite).length
      (by rw [List.length_drop]; omega) hlist₂ hb 0 (buffer.drop toWrite) rfl
    refine ⟨m', l', ?_, hlist', (hext₁.trans hext₂).trans hext', ?_⟩
    · rw [hstore, Option.bind_eq_bind, Option.bind_some, hnext]
      exact hfill
    · rw [hcontents', hcontents₂, hcontents₁, List.length_modify, length_contents]

/-- `ramfs_write` for a list of blocks. -/
theorem write (h : m.BlockList first l) (buffer : List UInt8) (offset : Nat) :
    ∃ first' m' l', m.write first buffer offset = some (first', m') ∧ m'.BlockList first' l' ∧
      Extended m m' l l' ∧
      m'.contents l' = Ramfs.writeBlocks
        (m.contents l ++ List.replicate (offset / ramfsBlockSize + 1 - l.length) zeroBlock)
        (offset / ramfsBlockSize) (offset % ramfsBlockSize) buffer := by
  cases first with
  | some start =>
      have hstart := (Chain.iff_getElem?.mp h.chain).1.symm
      obtain ⟨b, m₁, l₁, hskip, hlist₁, hext₁, hb, hcontents₁⟩ := h.skipBlocks hstart
        (offset / ramfsBlockSize)
      rw [Nat.zero_add] at hb hcontents₁
      obtain ⟨m', l', hfill, hlist', hext', hcontents'⟩ := hlist₁.fillBlocks hb
        (offset % ramfsBlockSize) buffer
      refine ⟨some start, m', l', ?_, hlist', hext₁.trans hext', by rw [hcontents', hcontents₁]⟩
      rw [RamfsMemory.write]
      dsimp only
      rw [hskip, Option.bind_eq_bind, Option.bind_some]
      dsimp only
      rw [hfill]
      rfl
  | none =>
      obtain ⟨rfl, hlist₀, hext₀, hcontents₀⟩ := h.kmalloc
      have hstart := (Chain.iff_getElem?.mp hlist₀.chain).1.symm
      obtain ⟨b, m₁, l₁, hskip, hlist₁, hext₁, hb, hcontents₁⟩ := hlist₀.skipBlocks hstart
        (offset / ramfsBlockSize)
      rw [Nat.zero_add] at hb hcontents₁
      obtain ⟨m', l', hfill, hlist', hext', hcontents'⟩ := hlist₁.fillBlocks hb
        (offset % ramfsBlockSize) buffer
      refine ⟨some m.given, m', l', ?_, hlist', (hext₀.trans hext₁).trans hext', ?_⟩
      · rw [RamfsMemory.write]
        change (RamfsMemory.skipBlocks (offset / ramfsBlockSize) m.kmalloc.2 m.given).bind _ = _
        rw [hskip, Option.bind_some]
        dsimp only
        rw [hfill]
        rfl
      · rw [hcontents', hcontents₁, hcontents₀, List.length_singleton, Nat.add_sub_cancel,
          List.length_nil, Nat.sub_zero, List.replicate_succ]
        rfl

theorem followBlocks (h : m.BlockList first l) (hn : n < l.length) :
    m.followBlocks n first = some (some (l.get ⟨n, hn⟩)) ∧
      m.BlockList (some (l.get ⟨n, hn⟩)) (l.drop n) := by
  induction n generalizing first l with
  | zero =>
      obtain ⟨a, rest, rfl⟩ := List.exists_cons_of_length_pos hn
      obtain ⟨rfl, hrest⟩ := h.chain
      exact ⟨rfl, h⟩
  | succ n ih =>
      obtain ⟨a, rest, rfl⟩ := List.exists_cons_of_length_pos (Nat.zero_lt_of_lt hn)
      obtain ⟨rfl, hrest⟩ := h.chain
      have htail : m.BlockList (m.blocks a).next rest :=
        ⟨hrest, fun b hb => h.live b (List.mem_cons_of_mem a hb)⟩
      obtain ⟨hfollow, hlist⟩ := ih htail (Nat.lt_of_succ_lt_succ hn)
      refine ⟨?_, hlist⟩
      simp only [RamfsMemory.followBlocks, Option.bind_eq_bind, Option.bind_some,
        load_of_live (h.live a List.mem_cons_self)]
      exact hfollow

theorem readBlocks (h : m.BlockList first l) (hsized : Ramfs.Sized (m.contents l))
    {blockOffset size : Nat} (hoffset : blockOffset < ramfsBlockSize)
    (hcovers : blockOffset + size ≤ l.length * ramfsBlockSize) :
    m.readBlocks first blockOffset size =
      some ((List.range' blockOffset size).map (Ramfs.byteAt (m.contents l))) := by
  induction l generalizing first blockOffset size with
  | nil =>
      obtain rfl : size = 0 := by
        rw [List.length_nil, Nat.zero_mul] at hcovers
        omega
      rw [RamfsMemory.readBlocks, if_pos (.inl rfl)]
      rfl
  | cons a rest ih =>
      obtain ⟨rfl, hrest⟩ := h.chain
      rw [RamfsMemory.readBlocks]
      by_cases hzero : size = 0
      · rw [if_pos (.inl hzero), hzero]
        rfl
      · have htail : m.BlockList (m.blocks a).next rest :=
          ⟨hrest, fun b hb => h.live b (List.mem_cons_of_mem a hb)⟩
        have hblock : (m.blocks a).data.length = ramfsBlockSize := hsized _ List.mem_cons_self
        have hsized' : Ramfs.Sized (m.contents rest) := fun block hmem =>
          hsized block (List.mem_cons_of_mem _ hmem)
        rw [List.length_cons, Nat.succ_mul] at hcovers
        have hcond : ¬ (size = 0 ∨ ramfsBlockSize ≤ blockOffset ∨ some a = none) := by
          rintro (hsize | hsize | hnone)
          · exact hzero hsize
          · omega
          · cases hnone
        rw [if_neg hcond]
        generalize htoRead : min (ramfsBlockSize - blockOffset) size = toRead
        have hmore : m.readBlocks (m.blocks a).next 0 (size - toRead) = _ :=
          ih htail hsized' Ramfs.ramfsBlockSize_pos (by omega)
        simp only [Option.bind_eq_bind, Option.bind_some,
          load_of_live (h.live a List.mem_cons_self), hmore]
        have hsize : size = toRead + (size - toRead) := by omega
        rw [Ramfs.bytes_cons hblock (by omega) (by omega), ← hsize]
        rfl

/-- Reading from blocks, of any size, stops at the last of them. -/
theorem readBlocks_isSome (h : m.BlockList first l) (blockOffset size : Nat) :
    (m.readBlocks first blockOffset size).isSome := by
  induction l generalizing first blockOffset size with
  | nil =>
      obtain rfl : first = none := h.chain
      rw [RamfsMemory.readBlocks, if_pos (.inr (.inr rfl))]
      rfl
  | cons a rest ih =>
      obtain ⟨rfl, hrest⟩ := h.chain
      have htail : m.BlockList (m.blocks a).next rest :=
        ⟨hrest, fun b hb => h.live b (List.mem_cons_of_mem a hb)⟩
      rw [RamfsMemory.readBlocks]
      split
      · rfl
      · obtain ⟨bytes, hbytes⟩ := Option.isSome_iff_exists.mp
          (ih htail 0 (size - min (ramfsBlockSize - blockOffset) size))
        simp only [Option.bind_eq_bind, Option.bind_some,
          load_of_live (h.live a List.mem_cons_self), hbytes]
        rfl

/-- `ramfs_read` of any size, for a file with blocks for its size. -/
theorem read_isSome (h : m.BlockList first l) {fileSize : Nat}
    (hcovers : fileSize ≤ l.length * ramfsBlockSize) (offset size : Nat) :
    (m.read first fileSize offset size).isSome := by
  rw [RamfsMemory.read]
  split
  · rfl
  · have hskip : offset / ramfsBlockSize < l.length :=
      (Nat.div_lt_iff_lt_mul Ramfs.ramfsBlockSize_pos).mpr (by omega)
    obtain ⟨hfollow, hlist⟩ := h.followBlocks hskip
    rw [hfollow, Option.bind_eq_bind, Option.bind_some]
    exact hlist.readBlocks_isSome _ _

/-- `ramfs_read` for a file with blocks for its size. -/
theorem read (h : m.BlockList first l) (hsized : Ramfs.Sized (m.contents l))
    {fileSize offset size : Nat} (hcovers : fileSize ≤ l.length * ramfsBlockSize)
    (hrange : offset + size < 2 ^ 64) :
    m.read first fileSize offset size =
      some ((List.range' offset (min size (fileSize - offset))).map
        (Ramfs.byteAt (m.contents l))) := by
  rw [RamfsMemory.read]
  by_cases hbehind : fileSize ≤ offset
  · rw [if_pos hbehind, Nat.sub_eq_zero_of_le hbehind, Nat.min_zero]
    rfl
  · have hdiv := Nat.div_add_mod' offset ramfsBlockSize
    have hmod := Nat.mod_lt offset Ramfs.ramfsBlockSize_pos
    have hskip : offset / ramfsBlockSize < l.length :=
      (Nat.div_lt_iff_lt_mul Ramfs.ramfsBlockSize_pos).mpr (by omega)
    obtain ⟨hfollow, hlist⟩ := h.followBlocks hskip
    have hsize : (if fileSize < (offset + size) % 2 ^ 64 then fileSize - offset else size) =
        min size (fileSize - offset) := by
      rw [Nat.mod_eq_of_lt hrange]
      split <;> omega
    have hdrop : m.contents (l.drop (offset / ramfsBlockSize)) =
        (m.contents l).drop (offset / ramfsBlockSize) := List.map_drop
    have hrest : m.readBlocks _ (offset % ramfsBlockSize) (min size (fileSize - offset)) = _ :=
      hlist.readBlocks (by
        rw [hdrop]
        exact fun block hblock => hsized block (List.mem_of_mem_drop hblock)) hmod (by
        rw [List.length_drop, Nat.sub_mul]
        omega)
    rw [if_neg hbehind, hsize]
    dsimp only
    rw [hfollow, Option.bind_eq_bind, Option.bind_some, hrest, hdrop]
    have hshift : List.range' offset (min size (fileSize - offset)) =
        (List.range' (offset % ramfsBlockSize) (min size (fileSize - offset))).map
          (offset / ramfsBlockSize * ramfsBlockSize + ·) := by
      rw [List.map_add_range', hdiv]
    rw [hshift, List.map_map]
    refine congrArg some (List.map_congr_left fun i _ => ?_)
    exact Ramfs.byteAt_drop _ _ i

/-! ### Growth -/

theorem length_le_given (h : m.BlockList first l) : l.length ≤ m.given := by
  have hsub : l.Subperm (List.range m.given) :=
    h.nodup.subperm fun a ha => List.mem_range.mpr (h.live a ha).1
  have hle := hsub.length_le
  rwa [List.length_range] at hle

theorem lastBlock (h : m.BlockList first l) (ha : l[i]? = some a) (hn : l.length ≤ i + n) :
    ∃ last, m.lastBlock n a = some last ∧ l[l.length - 1]? = some last := by
  induction n generalizing a i with
  | zero =>
      have hlt := (List.getElem?_eq_some_iff.mp ha).1
      omega
  | succ n ih =>
      have hlt := (List.getElem?_eq_some_iff.mp ha).1
      have hload := load_of_live (h.live_of_getElem? ha)
      have hnext := h.next_eq ha
      rw [RamfsMemory.lastBlock, hload, Option.bind_eq_bind, Option.bind_some, hnext]
      cases hmore : l[i + 1]? with
      | none =>
          have hlast : l.length = i + 1 := Nat.le_antisymm (List.getElem?_eq_none_iff.mp hmore) hlt
          exact ⟨a, rfl, by rw [hlast, Nat.add_sub_cancel, ha]⟩
      | some b => exact ih hmore (by omega)

theorem addBlocks (h : m.BlockList first l) (ha : l[i]? = some a) (hlast : l.length = i + 1)
    (n : Nat) :
    ∃ m' l', RamfsMemory.addBlocks n m a = some m' ∧ m'.BlockList first l' ∧ Extended m m' l l' ∧
      m'.contents l' = m.contents l ++ List.replicate n zeroBlock := by
  induction n generalizing m l a i with
  | zero => exact ⟨m, l, rfl, h, .refl m l, (List.append_nil _).symm⟩
  | succ n ih =>
      obtain ⟨m₁, hstore, hlist, hext, hcontents⟩ := h.push ha hlast
      have hnew : (l ++ [m.given])[i + 1]? = some m.given := by
        rw [← hlast, List.getElem?_append_right (Nat.le_refl _), Nat.sub_self]
        rfl
      have hlength : (l ++ [m.given]).length = i + 1 + 1 := by
        rw [List.length_append, List.length_singleton, hlast]
      obtain ⟨m', l', hadd, hlist', hext', hcontents'⟩ := ih hlist hnew hlength
      refine ⟨m', l', ?_, hlist', hext.trans hext', ?_⟩
      · rw [RamfsMemory.addBlocks]
        change (m.kmalloc.2.store a _).bind _ = _
        rw [hstore]
        exact hadd
      · rw [hcontents', hcontents, List.append_assoc, List.replicate_succ]
        rfl

/-- The last block of a list is found and has room behind it. -/
theorem addBlocks_last (h : m.BlockList first l) {start : Nat} (hstart : first = some start)
    (n : Nat) :
    ∃ last m' l', m.lastBlock m.given start = some last ∧
      RamfsMemory.addBlocks n m last = some m' ∧ m'.BlockList first l' ∧ Extended m m' l l' ∧
      m'.contents l' = m.contents l ++ List.replicate n zeroBlock := by
  have hfirst : l[0]? = some start := by
    rw [← hstart]
    exact (Chain.iff_getElem?.mp h.chain).1.symm
  have hpos := (List.getElem?_eq_some_iff.mp hfirst).1
  obtain ⟨last, hlast, hget⟩ := h.lastBlock hfirst (n := m.given) (by
    rw [Nat.zero_add]
    exact h.length_le_given)
  obtain ⟨m', l', hadd, hlist, hext, hcontents⟩ := h.addBlocks hget (by omega) n
  exact ⟨last, m', l', hlast, hadd, hlist, hext, hcontents⟩

theorem grow (h : m.BlockList first l) {difference : Nat} (hpos : 0 < difference)
    (hrounds : growRounds first difference < 2 ^ 31) :
    ∃ first' m' l', m.grow first difference = some (first', m') ∧ m'.BlockList first' l' ∧
      Extended m m' l l' ∧
      m'.contents l' = m.contents l ++ List.replicate difference zeroBlock := by
  cases first with
  | some start =>
      obtain ⟨last, m', l', hlast, hadd, hlist, hext, hcontents⟩ := h.addBlocks_last rfl difference
      refine ⟨some start, m', l', ?_, hlist, hext, hcontents⟩
      have hfew : ¬ 2 ^ 31 ≤ difference := Nat.not_le.mpr hrounds
      rw [RamfsMemory.grow, hlast, Option.bind_eq_bind, Option.bind_some, if_neg hfew, hadd]
      rfl
  | none =>
      obtain ⟨rfl, hlist₀, hext₀, hcontents₀⟩ := h.kmalloc
      obtain ⟨last, m', l', hlast, hadd, hlist, hext, hcontents⟩ :=
        hlist₀.addBlocks_last rfl (difference - 1)
      refine ⟨some m.given, m', l', ?_, hlist, hext₀.trans hext, ?_⟩
      · have hfew : ¬ 2 ^ 31 ≤ difference - 1 := Nat.not_le.mpr hrounds
        rw [RamfsMemory.grow, hlast, Option.bind_eq_bind, Option.bind_some, if_neg hfew, hadd]
        rfl
      · obtain ⟨k, rfl⟩ := Nat.exists_eq_add_of_lt hpos
        rw [hcontents, hcontents₀, Nat.zero_add, Nat.add_sub_cancel, List.replicate_succ]
        rfl

theorem grow_none (h : m.BlockList first l) {difference : Nat}
    (hrounds : 2 ^ 31 ≤ growRounds first difference) : m.grow first difference = none := by
  cases first with
  | some start =>
      obtain ⟨last, -, -, hlast, -⟩ := h.addBlocks_last rfl 0
      rw [RamfsMemory.grow, hlast, Option.bind_eq_bind, Option.bind_some]
      exact if_pos hrounds
  | none =>
      obtain ⟨rfl, hlist₀, -⟩ := h.kmalloc
      obtain ⟨last, -, -, hlast, -⟩ := hlist₀.addBlocks_last rfl 0
      rw [RamfsMemory.grow, hlast, Option.bind_eq_bind, Option.bind_some]
      exact if_pos hrounds

/-! ### Blocks that are freed -/

/-- The list goes through a ring that keeps its last blocks. -/
theorem ringBlocks {size k : Nat} {ring : Nat → Option Nat} (h : m.BlockList first l)
    (ha : l[k]? = some a) (hrecent : Recent size none (fun j => l[j]?) ring k) (hsize : 0 < size)
    (hn : l.length ≤ k + n) :
    ∃ ring', m.ringBlocks size n ring (k % size) = some (ring', (l.length - 1) % size) ∧
      Recent size none (fun j => l[j]?) ring' (l.length - 1) := by
  induction n generalizing k ring a with
  | zero =>
      have hlt := (List.getElem?_eq_some_iff.mp ha).1
      omega
  | succ n ih =>
      have hlt := (List.getElem?_eq_some_iff.mp ha).1
      have hcell : ring (k % size) = some a := (hrecent.kept k (Nat.le_refl k) (by omega)).trans ha
      have hload := load_of_live (h.live_of_getElem? ha)
      have hnext := h.next_eq ha
      simp only [RamfsMemory.ringBlocks, hcell, hload, Option.bind_eq_bind, Option.bind_some, hnext]
      cases hmore : l[k + 1]? with
      | none =>
          have hlast : l.length = k + 1 := Nat.le_antisymm (List.getElem?_eq_none_iff.mp hmore) hlt
          rw [hlast, Nat.add_sub_cancel]
          exact ⟨ring, rfl, hrecent⟩
      | some b =>
          have hpush := hrecent.push
          simp only [hmore] at hpush
          have hrest := ih hmore hpush (by omega)
          dsimp only
          rw [Nat.mod_add_mod]
          exact hrest

end BlockList

theorem kfree_of_live (ha : m.Live a) :
    m.kfree (some a) = some { m with
      freed := a :: m.freed
      freed_lt := List.forall_mem_cons.mpr ⟨ha.1, m.freed_lt⟩ } :=
  dif_pos ha

/-- Nothing but the record of what is freed changes. -/
structure Freed (m m' : RamfsMemory) (gone : List Nat) : Prop where
  blocks : m'.blocks = m.blocks
  given : m'.given = m.given
  freed : m'.freed = gone ++ m.freed

theorem freeAll_of_live {gone : List Nat} (hnodup : gone.Nodup) (hlive : ∀ a ∈ gone, m.Live a) :
    ∃ m', m.freeAll gone = some m' ∧ Freed m m' gone := by
  induction gone with
  | nil => exact ⟨m, rfl, rfl, rfl, rfl⟩
  | cons a rest ih =>
      rw [List.nodup_cons] at hnodup
      obtain ⟨m₁, hfree, hblocks, hgiven, hfreed⟩ := ih hnodup.2 fun b hb =>
        hlive b (List.mem_cons_of_mem a hb)
      have ha := hlive a List.mem_cons_self
      have ha' : m₁.Live a := by
        refine ⟨by rw [hgiven]; exact ha.1, ?_⟩
        rw [hfreed, List.mem_append]
        rintro (hmem | hmem)
        · exact hnodup.1 hmem
        · exact ha.2 hmem
      refine ⟨_, Eq.trans ?_ (kfree_of_live ha'), hblocks, hgiven, congrArg (a :: ·) hfreed⟩
      rw [freeAll] at hfree
      rw [freeAll, List.foldrM_cons, hfree]
      rfl

theorem freeRing_blank {size k s : Nat} {ring : Nat → Option Nat}
    (hblank : ∀ s, k < s → s < size → ring s = none) (hs : s < size) (hroom : k + n ≤ s) :
    freeRing size ring n m s = some m := by
  induction n generalizing s with
  | zero => rfl
  | succ n ih =>
      obtain ⟨t, rfl⟩ : ∃ t, s = t + 1 := ⟨s - 1, by omega⟩
      have hback := Recent.cell_back (Nat.zero_lt_of_lt hs) t
      rw [Nat.mod_eq_of_lt hs, Nat.mod_eq_of_lt (Nat.lt_of_succ_lt hs)] at hback
      rw [freeRing, hblank (t + 1) (by omega) hs]
      change freeRing size ring n m ((t + 1 + (size - 1)) % size) = some m
      rw [hback]
      exact ih (Nat.lt_of_succ_lt hs) (by omega)

theorem freeAll_concat (pointers : List Nat) (a : Nat) :
    m.freeAll (pointers ++ [a]) = (m.kfree (some a)).bind fun m => m.freeAll pointers := by
  rw [freeAll, List.foldrM_append, List.foldrM_cons, List.foldrM_nil, pure_bind]
  rfl

theorem freeRing_recent {size k j : Nat} {ring : Nat → Option Nat}
    (hrecent : Recent size none (fun j => l[j]?) ring k) (hj : j ≤ k) (hk : k < l.length)
    (hwindow : k + n < j + size) :
    freeRing size ring n m (j % size) = m.freeAll ((l.take (j + 1)).drop (j + 1 - n)) := by
  induction n generalizing m j with
  | zero =>
      rw [Nat.sub_zero, List.drop_of_length_le (List.length_take_le _ _)]
      rfl
  | succ n ih =>
      have hlt := Nat.lt_of_le_of_lt hj hk
      have hcell : ring (j % size) = some l[j] :=
        (hrecent.kept j hj (by omega)).trans (List.getElem?_eq_getElem hlt)
      rw [List.take_add_one, List.getElem?_eq_getElem hlt, Option.toList_some,
        List.drop_append_of_le_length (by rw [List.length_take]; omega), freeAll_concat, freeRing,
        hcell]
      refine congrArg ((m.kfree (some l[j])).bind ·) (funext fun m' => ?_)
      cases j with
      | zero =>
          have hfirst : (0 % size + (size - 1)) % size = size - 1 := by
            rw [Nat.zero_mod, Nat.zero_add]
            exact Nat.mod_eq_of_lt (by omega)
          rw [hfirst, freeRing_blank hrecent.unused (by omega) (by omega), List.take_zero,
            List.drop_nil]
          rfl
      | succ j =>
          have hback := ih (m := m') (j := j) (by omega) (by omega)
          rw [Recent.cell_back (by omega), hback, show j + 1 + 1 - (n + 1) = j + 1 - n by omega]

/-- The blocks of a file after some are given back from its end. -/
structure Shrunk (m m' : RamfsMemory) (l : List Nat) (kept : Nat) : Prop where
  given : m'.given = m.given
  freed : m'.freed = l.drop kept ++ m.freed
  frame : ∀ a, a ∉ l → m'.blocks a = m.blocks a

theorem Shrunk.live (h : Shrunk m m' l n) (hnodup : l.Nodup) (ha : m.Live a)
    (hkept : a ∈ l → a ∈ l.take n) : m'.Live a := by
  refine ⟨by rw [h.given]; exact ha.1, ?_⟩
  rw [h.freed, List.mem_append]
  rintro (hmem | hmem)
  · have hsplit := hnodup
    rw [← List.take_append_drop n l, List.nodup_append] at hsplit
    exact hsplit.2.2 a (hkept (List.mem_of_mem_drop hmem)) a hmem rfl
  · exact ha.2 hmem

theorem BlockList.setEnd (h : m.BlockList first l) {k : Nat} (ha : l[k]? = some a) (rest : Nat) :
    ∃ m', m.store a (endBlock rest) = some m' ∧ m'.BlockList first (l.take (k + 1)) ∧
      m'.given = m.given ∧ m'.freed = m.freed ∧ (∀ b, b ∉ l → m'.blocks b = m.blocks b) ∧
      m'.contents (l.take (k + 1)) = (m.contents (l.take (k + 1))).modify k fun data =>
        (endBlock rest ⟨data, none⟩).data := by
  obtain ⟨hlt, hget⟩ := List.getElem?_eq_some_iff.mp ha
  have hsplit : l.take k ++ a :: l.drop (k + 1) = l := by
    rw [← hget, List.getElem_cons_drop, List.take_append_drop]
  have htake : l.take (k + 1) = l.take k ++ [a] := by
    rw [List.take_add_one, ha, Option.toList_some]
  have hchain := h.chain
  rw [← hsplit] at hchain
  refine ⟨_, store_of_live (h.live_of_getElem? ha) _, ⟨?_, fun b hb => ?_⟩, rfl, rfl,
    fun b hb => ?_, ?_⟩
  · rw [htake]
    refine hchain.splice (fun b hb => ?_) ?_
    · exact congrArg RamfsData.next (Function.update_of_ne (hchain.ne_of_split.1 b hb) _ _)
    · exact congrArg RamfsData.next (Function.update_self a (endBlock rest (m.blocks a)) m.blocks)
  · exact h.live b (List.mem_of_mem_take hb)
  · refine Function.update_of_ne (fun heq => hb ?_) _ _
    exact heq ▸ List.mem_of_getElem? ha
  · have hlast : (l.take (k + 1))[k]? = some a := by
      rw [List.getElem?_take_of_lt (Nat.lt_succ_self k), ha]
    exact contents_update (h.nodup.sublist (List.take_sublist _ _)) hlast rfl rfl

theorem BlockList.shrink (h : m.BlockList first l) (hne : l ≠ []) {difference : Nat}
    (hfew : difference < 2 ^ 31) (newSize : Nat) :
    ∃ first' m', m.shrink first difference newSize = some (first', m') ∧
      m'.BlockList first' (l.take (l.length - difference)) ∧
      Shrunk m m' l (l.length - difference) ∧
      m'.contents (l.take (l.length - difference)) =
        ((m.contents l).take (l.length - difference)).modify (l.length - difference - 1)
          fun data => (endBlock (newSize % ramfsBlockSize) ⟨data, none⟩).data := by
  have hpos := List.length_pos_iff.mpr hne
  have hfirst : first = l[0]? := (Chain.iff_getElem?.mp h.chain).1
  have hstart : Recent (difference + 1) none (fun j => l[j]?)
      (fun i => if i = 0 then first else none) 0 := by
    rw [hfirst]
    exact .start
  obtain ⟨ring, hring, hrecent⟩ := h.ringBlocks (List.getElem?_eq_getElem hpos) hstart
    (Nat.succ_pos difference) (n := m.given) (by
      rw [Nat.zero_add]
      exact h.length_le_given)
  rw [Nat.zero_mod] at hring
  have hfree : ∀ m' : RamfsMemory, freeRing (difference + 1) ring difference m'
      ((l.length - 1) % (difference + 1)) = m'.freeAll (l.drop (l.length - difference)) := by
    intro m'
    rw [freeRing_recent hrecent (Nat.le_refl _) (by omega) (by omega), Nat.sub_add_cancel hpos,
      List.take_length]
  have hnotMany : ¬ 2 ^ 31 ≤ difference := Nat.not_le.mpr hfew
  have hnodup : (l.drop (l.length - difference)).Nodup :=
    h.nodup.sublist (List.drop_sublist _ _)
  rw [RamfsMemory.shrink]
  dsimp only
  rw [hring, Option.bind_eq_bind, Option.bind_some]
  dsimp only
  simp only [Nat.mod_add_mod, if_neg hnotMany, Nat.sub_add_cancel hpos, hfree,
    Option.bind_eq_bind, Option.bind_some]
  have hcontents : m.contents (l.take (l.length - difference)) =
      (m.contents l).take (l.length - difference) := List.map_take
  rcases Nat.lt_or_ge difference l.length with hlt | hge
  · -- there is a new last block
    have holdest := hrecent.oldest (by omega) (Nat.succ_pos difference)
    rw [Nat.sub_add_cancel hpos] at holdest
    have hend : l[l.length - (difference + 1)]? = some l[l.length - (difference + 1)] :=
      List.getElem?_eq_getElem (by omega)
    obtain ⟨m₁, hstore, hlist, hgiven, hfreed, hframe, hdata⟩ :=
      h.setEnd hend (newSize % ramfsBlockSize)
    have hkept : l.length - (difference + 1) + 1 = l.length - difference := by omega
    have hlast : l.length - (difference + 1) = l.length - difference - 1 := by omega
    rw [hkept] at hlist hdata
    obtain ⟨m', hfreeAll, hfreed'⟩ := freeAll_of_live (m := m₁) hnodup fun b hb => by
      have hlive := h.live b (List.mem_of_mem_drop hb)
      exact ⟨by rw [hgiven]; exact hlive.1, by rw [hfreed]; exact hlive.2⟩
    have hshrunk : Shrunk m m' l (l.length - difference) := by
      refine ⟨hfreed'.given.trans hgiven, by rw [hfreed'.freed, hfreed], fun b hb => ?_⟩
      rw [hfreed'.blocks, hframe b hb]
    refine ⟨first, m', ?_, ⟨?_, fun b hb => ?_⟩, hshrunk, ?_⟩
    · rw [holdest, hend]
      dsimp only
      rw [hstore, Option.bind_some, hfreeAll]
      rfl
    · rw [hfreed'.blocks]
      exact hlist.chain
    · exact hshrunk.live h.nodup (h.live b (List.mem_of_mem_take hb)) fun _ => hb
    · rw [hlast, hcontents] at hdata
      rw [contents, hfreed'.blocks]
      exact hdata
  · -- every block is freed
    have hkept : l.length - difference = 0 := Nat.sub_eq_zero_of_le hge
    have hnone := hrecent.oldest_unused (by omega)
    rw [Nat.sub_add_cancel hpos] at hnone
    obtain ⟨m', hfreeAll, hfreed'⟩ := freeAll_of_live (m := m) hnodup
      fun b hb => h.live b (List.mem_of_mem_drop hb)
    refine ⟨none, m', ?_, ?_, ⟨hfreed'.given, hfreed'.freed, fun b _ => by rw [hfreed'.blocks]⟩, ?_⟩
    · rw [hnone]
      dsimp only
      rw [hfreeAll]
      rfl
    · rw [hkept]
      exact ⟨rfl, fun b hb => nomatch hb⟩
    · rw [hkept, List.take_zero, List.take_zero, List.modify_nil]
      rfl

/-! ### All of a call -/

/-- A call took new memory for the blocks of a file and gave some back; what it has now
and what is gone is what it had and what it took. -/
structure Rewritten (m m' : RamfsMemory) (l l' gone : List Nat) : Prop where
  given : m.given ≤ m'.given
  owned : l ++ List.range' m.given (m'.given - m.given) = l' ++ gone
  freed : m'.freed = gone ++ m.freed
  frame : ∀ a, a < m.given → a ∉ l → m'.blocks a = m.blocks a

theorem Extended.rewritten (h : Extended m m' l l') : Rewritten m m' l l' [] where
  given := h.given
  owned := by rw [List.append_nil, h.added]
  freed := h.freed
  frame := h.frame

theorem Shrunk.rewritten (h : Shrunk m m' l n) : Rewritten m m' l (l.take n) (l.drop n) where
  given := h.given.ge
  owned := by
    rw [h.given, Nat.sub_self, List.range'_zero, List.append_nil, List.take_append_drop]
  freed := h.freed
  frame a _ := h.frame a

namespace Rewritten

variable {gone : List Nat}

theorem mem_iff (h : Rewritten m m' l l' gone) :
    a ∈ l' ∨ a ∈ gone ↔ a ∈ l ∨ m.given ≤ a ∧ a < m'.given := by
  rw [← List.mem_append, ← h.owned, List.mem_append, List.mem_range'_1,
    Nat.add_sub_of_le h.given]

theorem live (h : Rewritten m m' l l' gone) (ha : m.Live a) (hout : a ∉ l) : m'.Live a := by
  refine ⟨Nat.lt_of_lt_of_le ha.1 h.given, ?_⟩
  rw [h.freed, List.mem_append]
  rintro (hgone | hfreed)
  · rcases h.mem_iff.mp (.inr hgone) with hmem | hnew
    · exact hout hmem
    · exact Nat.not_le.mpr ha.1 hnew.1
  · exact ha.2 hfreed

theorem blockList (h : Rewritten m m' l l' gone) {start : Option Nat} {other : List Nat}
    (hlist : m.BlockList start other) (hout : ∀ a ∈ other, a ∉ l) : m'.BlockList start other :=
  hlist.congr (fun a ha => h.frame a (hlist.live a ha).1 (hout a ha))
    fun a ha => h.live (hlist.live a ha) (hout a ha)

theorem freed_nodup (h : Rewritten m m' l l' gone) (hlist : m.BlockList first l)
    (hfreed : m.freed.Nodup) : m'.freed.Nodup := by
  have hnew : ∀ a ∈ l, a ∉ List.range' m.given (m'.given - m.given) := fun a ha hmem =>
    Nat.not_le.mpr (hlist.live a ha).1 (List.mem_range'_1.mp hmem).1
  have hall : (l ++ List.range' m.given (m'.given - m.given)).Nodup :=
    hlist.nodup.append (List.nodup_range' _) hnew
  rw [h.owned] at hall
  rw [h.freed]
  refine hall.of_append_right.append hfreed fun a hgone hmem => ?_
  rcases h.mem_iff.mp (.inr hgone) with hold | hnew
  · exact (hlist.live a hold).2 hmem
  · exact Nat.not_le.mpr (m.freed_lt a hmem) hnew.1

end Rewritten

/-- The rounds of the loops with a counter in `ramfs_truncate`. -/
def truncateRounds (first : Option Nat) (fileSize newSize : Nat) : Nat :=
  if ramfsBlockCount fileSize < ramfsBlockCount newSize then
    growRounds first (ramfsBlockCount newSize - ramfsBlockCount fileSize)
  else ramfsBlockCount fileSize - ramfsBlockCount newSize

/-- `ramfs_truncate` does to the memory what `truncateBlocks` does to the contents. -/
theorem BlockList.truncate (h : m.BlockList first l) {fileSize newSize : Nat}
    (hfew : truncateRounds first fileSize newSize < 2 ^ 31) {blocks : List (List UInt8)}
    (hblocks : Ramfs.truncateBlocks (m.contents l) fileSize newSize = some blocks) :
    ∃ first' m' l' gone, m.truncate first fileSize newSize = some (first', m') ∧
      m'.BlockList first' l' ∧ Rewritten m m' l l' gone ∧ m'.contents l' = blocks := by
  rw [Ramfs.truncateBlocks] at hblocks
  rw [RamfsMemory.truncate]
  rw [truncateRounds] at hfew
  dsimp only at hblocks ⊢
  split at hfew
  next hgrow =>
    rw [if_pos hgrow] at hblocks ⊢
    obtain ⟨first', m', l', hm, hlist, hext, hcontents⟩ := h.grow (Nat.sub_pos_of_lt hgrow) hfew
    exact ⟨first', m', l', [], hm, hlist, hext.rewritten,
      hcontents.trans (Option.some.inj hblocks)⟩
  next hgrow =>
    rw [if_neg hgrow] at hblocks ⊢
    split at hblocks
    next hshrink =>
      rw [if_pos hshrink]
      split at hblocks
      next hnil => cases hblocks
      next hne =>
        have hne' : l ≠ [] := fun hnil => hne (by rw [hnil]; rfl)
        obtain ⟨first', m', hm, hlist, hshrunk, hcontents⟩ := h.shrink hne' hfew newSize
        refine ⟨first', m', _, _, hm, hlist, hshrunk.rewritten, hcontents.trans ?_⟩
        rw [length_contents] at hblocks
        have hlength : ((m.contents l).take (l.length -
            (ramfsBlockCount fileSize - ramfsBlockCount newSize))).length =
            l.length - (ramfsBlockCount fileSize - ramfsBlockCount newSize) := by
          rw [List.length_take, length_contents]
          omega
        split at hblocks
        next hrest =>
          rw [← Option.some.inj hblocks]
          simp only [endBlock, if_pos hrest]
          exact List.modify_id _ _
        next hrest =>
          rw [← Option.some.inj hblocks, hlength]
          simp only [endBlock, if_neg hrest]
    next hshrink =>
      rw [if_neg hshrink]
      exact ⟨first, m, l, [], rfl, h, (Extended.refl m l).rewritten, Option.some.inj hblocks⟩

theorem BlockList.truncate_overflow (h : m.BlockList first l) {fileSize newSize : Nat}
    (hmany : 2 ^ 31 ≤ truncateRounds first fileSize newSize) :
    m.truncate first fileSize newSize = none := by
  rw [truncateRounds] at hmany
  rw [RamfsMemory.truncate]
  split at hmany
  next hgrow =>
    rw [if_pos hgrow]
    exact h.grow_none hmany
  next hgrow =>
    have hshrink : ramfsBlockCount newSize < ramfsBlockCount fileSize := by omega
    rw [if_neg hgrow, if_pos hshrink, RamfsMemory.shrink]
    dsimp only
    cases m.ringBlocks _ m.given _ 0 with
    | none => rfl
    | some found =>
        rw [Option.bind_eq_bind, Option.bind_some]
        simp only [if_pos hmany]
        cases found.1 _ with
        | none => rfl
        | some newEnd =>
            dsimp only
            cases m.store newEnd _ with
            | none => rfl
            | some m' => rfl

/-- The pointers that are collected are the first blocks of the list. -/
theorem BlockList.dataPointers (h : m.BlockList first l) (n : Nat) :
    m.dataPointers n first = some (l.take n) := by
  induction n generalizing first l with
  | zero => rfl
  | succ n ih =>
      cases l with
      | nil =>
          obtain rfl : first = none := h.chain
          rfl
      | cons a rest =>
          obtain ⟨rfl, hrest⟩ := h.chain
          have htail : m.BlockList (m.blocks a).next rest :=
            ⟨hrest, fun b hb => h.live b (List.mem_cons_of_mem a hb)⟩
          cases n with
          | zero => rfl
          | succ n =>
              simp only [RamfsMemory.dataPointers, load_of_live (h.live a List.mem_cons_self),
                Option.bind_eq_bind, Option.bind_some, ih htail]
              rfl

/-- `ramfs_free_dirent` frees as many blocks as it counts for the size of the file. -/
theorem BlockList.freeBlocks (h : m.BlockList first l) {fileSize : Nat}
    {stack : Nat} (hfit : PointersFit stack fileSize) :
    ∃ m', m.freeBlocks stack first fileSize = some m' ∧
      Freed m m' (l.take (dataPointerCount fileSize).toNat) := by
  obtain ⟨m', hfree, hfreed⟩ := freeAll_of_live (h.nodup.sublist (List.take_sublist
    (dataPointerCount fileSize).toNat l)) fun a ha => h.live a (List.mem_of_mem_take ha)
  have hpointers := h.dataPointers (dataPointerCount fileSize).toNat
  refine ⟨m', ?_, hfreed⟩
  rw [RamfsMemory.freeBlocks, if_pos hfit, hpointers, Option.bind_eq_bind, Option.bind_some, hfree]

end RamfsMemory

end GlitchedOS
