/-
The paging calls as runs of a pool of frames.  Whatever the page tables look like,
`free_page`, `free_page_tables`, `cow_handler`, `alloc_region` and
`allocate_physical_page` only take, share and drop frames one at a time, the frames
they take come out of one search each, and a panic for want of memory is a search
that finds nothing.  So does `clone_page_tables` where the counts have room for what it
shares.
-/
import GlitchedOS.Lib.Pool
import GlitchedOS.Paging.AllFrames

namespace GlitchedOS

variable {s s' s₁ : PhysMem}

/-- The counts and the search hint. -/
def PhysMem.pool (s : PhysMem) : HintPool :=
  ⟨s.memoryBitmap, s.firstUsable, s.usablePageCount⟩

theorem PhysMem.setCount_pool (s : PhysMem) (f n : Nat) : (s.setCount f n).pool =
    ⟨Function.update s.memoryBitmap f n, s.firstUsable, s.usablePageCount⟩ := by
  rw [pool, setCount]
  congr 1
  funext g
  rw [Function.update_apply]

theorem findAvailable_none {bitmap : Nat → Nat} :
    ∀ {n i : Nat}, findAvailable bitmap n i = none →
      ∀ f, i ≤ f → f < i + n → bitmap f ≠ 0
  | 0, i, _, f, hlo, hhi => absurd hhi (by omega)
  | n + 1, i, h, f, hlo, hhi => by
      rw [findAvailable] at h
      split at h
      · cases h
      · rename_i hne
        rcases Nat.eq_or_lt_of_le hlo with rfl | hlt
        · exact hne
        · exact findAvailable_none h f hlt (by omega)

/-- A search with the increment of its caller takes a frame. -/
theorem take_step {f : Nat} (h : getAvailableAddress s = .ok (f, s₁)) :
    HintStep s.pool (.take f) (s₁.incCount f).pool := by
  rw [getAvailableAddress] at h
  split at h
  · rename_i i hfind
    cases h
    obtain ⟨hlo, hhi, hfree, hfirst⟩ := findAvailable_some hfind
    have hstep := HintStep.take (p := s.pool) hlo (by change _ < s.usablePageCount; omega)
      hfree hfirst
    rw [PhysMem.incCount, PhysMem.setCount_pool, hfree]
    exact hstep
  · cases h

theorem getAvailableAddress_exhausted {reason : Panic}
    (h : getAvailableAddress s = .error reason) : s.pool.Exhausted := by
  rw [getAvailableAddress] at h
  split at h
  · cases h
  · rename_i hfind
    intro f hlo hlt
    have hlo : s.firstUsable ≤ f := hlo
    have hlt : f < s.usablePageCount := hlt
    exact findAvailable_none hfind f hlo (by omega)

theorem share_step {f : Nat} (hused : s.memoryBitmap f ≠ 0)
    (hroom : s.memoryBitmap f + 1 < 2 ^ 32) :
    HintStep s.pool (.share f) (s.incCount f).pool := by
  rw [PhysMem.incCount, PhysMem.setCount_pool, Nat.mod_eq_of_lt hroom]
  exact .share hused

theorem drop_step (s : PhysMem) (f : Nat) :
    HintStep s.pool (.drop f) (s.decCount f).pool := by
  have hpool : (s.decCount f).pool =
      ⟨Function.update s.memoryBitmap f (s.memoryBitmap f - 1),
        if s.memoryBitmap f ≤ 1 ∧ f < s.firstUsable then f else s.firstUsable,
        s.usablePageCount⟩ := by
    rw [PhysMem.decCount_eq, PhysMem.pool]
    congr 1
    funext g
    change s.memoryBitmap g - (if f = g then 1 else 0) = _
    rw [Function.update_apply]
    by_cases hg : g = f
    · rw [if_pos hg, if_pos hg.symm, hg]
    · rw [if_neg hg, if_neg (Ne.symm hg), Nat.sub_zero]
  rw [hpool]
  exact .drop s.pool f

theorem reaches_drop (s : PhysMem) (f : Nat) : s.pool.Reaches (s.decCount f).pool :=
  .of_step (drop_step s f)

/-- A call that starts with the pool `p`: if it returns, the pool it leaves is reached
from `p`; if it panics for want of memory, one is reached in which the search finds
nothing. -/
structure Ends {α : Type} (pool : α → HintPool) (p : HintPool) (x : Except Panic α) :
    Prop where
  reaches : ∀ a, x = .ok a → p.Reaches (pool a)
  exhausted : x = .error .outOfMemory → ∃ q, p.Reaches q ∧ q.Exhausted

namespace Ends

variable {α β : Type} {pool : α → HintPool} {pool' : β → HintPool} {p q : HintPool}

theorem ok {a : α} (h : p.Reaches (pool a)) : Ends pool p (.ok a) :=
  ⟨fun _ ha => Except.ok.inj ha ▸ h, nofun⟩

theorem error {reason : Panic} (hne : reason ≠ .outOfMemory) :
    Ends pool p (.error reason) :=
  ⟨nofun, fun h => absurd (Except.error.inj h) hne⟩

theorem of_reaches {x : Except Panic α} (hreach : p.Reaches q) (h : Ends pool q x) :
    Ends pool p x := by
  refine ⟨fun a ha => hreach.trans (h.reaches a ha), fun hx => ?_⟩
  obtain ⟨r, hr, hnone⟩ := h.exhausted hx
  exact ⟨r, hreach.trans hr, hnone⟩

theorem bind {x : Except Panic α} {f : α → Except Panic β} (hx : Ends pool p x)
    (hf : ∀ a, x = .ok a → Ends pool' (pool a) (f a)) : Ends pool' p (x >>= f) := by
  constructor
  · intro b hb
    rw [bind_ok] at hb
    obtain ⟨a, ha, hb⟩ := hb
    exact (hx.reaches a ha).trans ((hf a ha).reaches b hb)
  · intro herror
    rw [bind_error] at herror
    rcases herror with herror | ⟨a, ha, herror⟩
    · exact hx.exhausted herror
    · exact ((hf a ha).of_reaches (hx.reaches a ha)).exhausted herror

theorem loopRounds {body : Nat → α → Except Panic α} {a : α} :
    ∀ {n : Nat}, (∀ k < n, ∀ b, GlitchedOS.loopRounds body k a = .ok b →
        Ends pool (pool b) (body k b)) →
      Ends pool (pool a) (GlitchedOS.loopRounds body n a)
  | 0, _ => .ok (.refl _)
  | n + 1, hbody => by
      rw [GlitchedOS.loopRounds]
      exact (loopRounds fun k hk => hbody k (Nat.lt_succ_of_lt hk)).bind
        (hbody n (Nat.lt_succ_self n))

end Ends

open HintPool

theorem ends_search {α : Type} {pool : α → HintPool} {k : Nat × PhysMem → Except Panic α}
    (hk : ∀ f s₁, getAvailableAddress s = .ok (f, s₁) →
      Ends pool (s₁.incCount f).pool (k (f, s₁))) :
    Ends pool s.pool (getAvailableAddress s >>= k) := by
  cases h : getAvailableAddress s with
  | ok found => exact (hk found.1 found.2 h).of_reaches (.of_step (take_step h))
  | error reason =>
      exact ⟨nofun, fun _ => ⟨s.pool, .refl _, getAvailableAddress_exhausted h⟩⟩

theorem allocatePhysicalPage_ends (s : PhysMem) :
    Ends (fun r => r.2.pool) s.pool (allocatePhysicalPage s) :=
  ends_search fun _ _ _ => .ok (.refl _)

theorem tableAt_ends (s : PhysMem) (t i : Nat) :
    Ends (fun r => r.2.pool) s.pool (tableAt s t i) := by
  rw [tableAt]
  split
  · exact .ok (.refl _)
  · refine (allocatePhysicalPage_ends s).bind fun r _ => ?_
    dsimp only
    split
    · exact .error (by decide)
    · exact .ok (.refl _)

theorem cachedTable_ends (changed : Bool) (cached : Nat) (s : PhysMem) (t i : Nat) :
    Ends (fun r => r.2.pool) s.pool (cachedTable changed cached s t i) := by
  rw [cachedTable]
  split
  · exact tableAt_ends s t i
  · exact .ok (.refl _)

theorem regionRound_ends (root vaddr : Nat) (flags : Flags) (k : Nat)
    (state : Cursor × PhysMem) :
    Ends (fun r => r.2.pool) state.2.pool (regionRound root vaddr flags k state) := by
  obtain ⟨c, s⟩ := state
  rw [regionRound, allocRound]
  refine (cachedTable_ends c.pml4Changed c.pdpt s root _).bind fun a _ => ?_
  refine (cachedTable_ends c.pdptChanged c.pd a.2 a.1 _).bind fun b _ => ?_
  refine (cachedTable_ends c.pdChanged c.pt b.2 b.1 _).bind fun d _ => ?_
  dsimp only
  split
  · exact .error (by decide)
  · rw [regionLeaf]
    set s₁ := orWord (orWord (orWord d.2 root c.idx.pml4Index higherLevelFlags) a.1
      c.idx.pdptIndex higherLevelFlags) b.1 c.idx.pdIndex higherLevelFlags
    change Ends _ s₁.pool _
    rw [bind_assoc]
    exact ends_search fun f s₂ _ => .ok (.refl _)

theorem allocRegion64_ends (s : PhysMem) (root vaddr size : Nat) (flags : Flags) :
    Ends PhysMem.pool s.pool (allocRegion64 s root vaddr size flags) := by
  rw [allocRegion64]
  have hloop : Ends (fun r => r.2.pool) s.pool (loopRounds (regionRound root vaddr flags)
      (regionRounds vaddr size) (Cursor.start vaddr, s)) :=
    Ends.loopRounds (a := (Cursor.start vaddr, s))
      fun k _ state _ => regionRound_ends root vaddr flags k state
  exact hloop.bind fun _ _ => .ok (.refl _)

theorem resolveCow_ends (s : PhysMem) (pt i : Nat) :
    Ends (fun r => r.2.pool) s.pool (resolveCow s pt i) := by
  rw [resolveCow]
  dsimp only
  split
  · split
    · rename_i hshared
      set f := frameOf (s.mem pt i) with hf
      refine ends_search fun new s₁ hget => ?_
      obtain ⟨hlt, hfree, rfl⟩ := getAvailableAddress_ok hget
      have hne : f ≠ new := by
        rintro h
        rw [h, hfree] at hshared
        exact absurd hshared (by decide)
      -- the count of the old frame does not fall to zero, so the hint stays
      have hdrop := reaches_drop (({ s with firstUsable := new + 1 } : PhysMem).incCount new) f
      refine .ok ?_
      convert hdrop using 1
      rw [PhysMem.decCount_eq]
      change HintPool.mk _ _ _ = HintPool.mk _ _ _
      congr 1
      · funext g
        simp only [PhysMem.incCount, PhysMem.setCount, PhysMem.copyFrame]
        by_cases hgn : g = new
        · subst hgn
          simp [hne, hfree]
        · by_cases hgf : g = f
          · subst hgf
            simp [hne]
          · simp [hgn, hgf, Ne.symm hgf]
      · symm
        apply if_neg
        intro hcond
        have hcount : (if f = new then _ else s.memoryBitmap f) ≤ 1 := hcond.1
        rw [if_neg hne] at hcount
        omega
    · exact .ok (.refl _)
  · exact .ok (.refl _)

theorem cowHandler_ends (s : PhysMem) (root addr : Nat) :
    Ends (fun r => r.2.pool) s.pool (cowHandler s root addr) := by
  rw [cowHandler]
  dsimp only
  repeat' split
  all_goals first
    | exact .ok (.refl _)
    | exact resolveCow_ends s _ _

theorem releaseIfEmpty_reaches (s : PhysMem) (table parent i : Nat) :
    s.pool.Reaches (releaseIfEmpty s table parent i).pool := by
  rw [releaseIfEmpty]
  split
  · exact reaches_drop s _
  · exact .refl _

theorem freePage_reaches (s : PhysMem) (root page : Nat) :
    s.pool.Reaches (freePage s root page).2.pool := by
  by_cases hpage : page = 0
  · rw [freePage, if_pos hpage]
    exact .refl _
  · cases h : pte s root page with
    | none =>
        rw [freePage_unmapped h]
        exact .refl _
    | some e =>
        obtain ⟨pdpt, pd, pt, hw, hpres, -⟩ := walked_of_pte h
        rw [freePage_mapped hpage hw hpres]
        set s₁ := s.writeWord pt (vpath page 1) 0#64
        have hdrop : s.pool.Reaches (s₁.decCount (frameOf (s.mem pt (vpath page 1)))).pool :=
          reaches_drop s₁ _
        exact ((hdrop.trans (releaseIfEmpty_reaches _ _ _ _)).trans
          (releaseIfEmpty_reaches _ _ _ _)).trans (releaseIfEmpty_reaches _ _ _ _)

theorem freeTable_reaches : ∀ (level n t : Nat) (s : PhysMem),
    s.pool.Reaches (freeTable level n t s).pool
  | 0, n, t, s => by
      rw [freeTable]
      refine loopPure_induct (P := fun _ (st : PhysMem) => s.pool.Reaches st.pool) (.refl _) ?_
      intro l _ st hst
      split
      · exact hst.trans (reaches_drop st _)
      · exact hst
  | level + 1, n, t, s => by
      rw [freeTable]
      refine loopPure_induct (P := fun _ (st : PhysMem) => s.pool.Reaches st.pool) (.refl _) ?_
      intro i _ st hst
      dsimp only
      split
      · exact (hst.trans (freeTable_reaches level 512 _ st)).trans (reaches_drop _ _)
      · exact hst

theorem freePageTables_reaches (s : PhysMem) (root : Nat) :
    s.pool.Reaches (freePageTables s root).pool :=
  (freeTable_reaches 3 256 root s).trans (reaches_drop _ _)

section Clone

open Radix

variable {held : Nat → Nat} {root : Nat}

/-- Cloning a table of height `k + 1` whose leaves have room in their counts. -/
def CloneEnds (held : Nat → Nat) (root k : Nat)
    (clone : Nat → PhysMem → Except Panic (Nat × PhysMem)) : Prop :=
  ∀ ⦃d src : Nat⦄ ⦃p : Nat → Nat⦄ ⦃l : List Word⦄ ⦃s : PhysMem⦄ ⦃rest : List (Nat × Nat)⦄,
    k + 1 + d = 4 → Counted s.widen held ((4, root) :: rest) → InRange p →
    descend pageFormat s.mem p (k + 1) d root = some (l, src) → Room s (k + 1) src →
      Ends (fun r => r.2.pool) s.pool (clone src s)

/-- A page that is shared gives its frame one count more. -/
theorem cloneLeaf_reaches {src new n : Nat}
    (hready : present (s.mem src n) = true →
      s.memoryBitmap (frameOf (s.mem src n)) ≠ 0 ∧
        s.memoryBitmap (frameOf (s.mem src n)) + 1 < 2 ^ 32) :
    s.pool.Reaches (cloneLeaf src new n s).pool := by
  cases hpres : present (s.mem src n) with
  | false =>
      rw [cloneLeaf_absent hpres]
      exact .refl _
  | true =>
      obtain ⟨hused, hroom⟩ := hready hpres
      rw [cloneLeaf_present hpres]
      set s₁ := s.writeWord src n (shareWord (s.mem src n))
      exact .of_step (share_step (s := s₁) hused hroom)

theorem entryStep_ends {k d src new n : Nat} {p : Nat → Nat} {l : List Word}
    {rest : List (Nat × Nat)} {clone : Nat → PhysMem → Except Panic (Nat × PhysMem)}
    (hclone : CloneEnds held root k clone)
    (h : CloneUpTo held root rest p (k + 1) src new n s.widen s'.widen)
    (hc : Counted s.widen held ((4, root) :: rest)) (hp : InRange p)
    (hheight : k + 1 + 1 + d = 4)
    (hd : descend pageFormat s.mem p (k + 1 + 1) d root = some (l, src))
    (hn : n < pageFormat.width (k + 1 + 1)) (hroom : Room s (k + 1 + 1) src) :
    Ends PhysMem.pool s'.pool (cloneEntry clone src new n s') := by
  rw [cloneEntry]
  dsimp only
  split
  · rename_i hpres
    obtain ⟨huse, -, -⟩ := h.shapeBelow hc hheight hp hd
    obtain ⟨hc', ⟨l', hd'⟩, hroom'⟩ := h.child_ready hc hp hheight hd hn hroom
      ((h.shape src huse n).1.symm.trans hpres)
    exact (hclone (by omega) hc' (inRange_update pageFormat hp hn) hd' hroom').bind
      fun _ _ => .ok (.refl _)
  · exact .ok (.refl _)

theorem entryRounds_ends {k d src new : Nat} {p : Nat → Nat} {l : List Word}
    {rest : List (Nat × Nat)} (hk : k < 3) (hclone : CloneEnds held root k (cloneTable k))
    (hstart : CloneUpTo held root rest p (k + 1) src new 0 s.widen s'.widen)
    (hc : Counted s.widen held ((4, root) :: rest)) (hp : InRange p)
    (hheight : k + 1 + 1 + d = 4)
    (hd : descend pageFormat s.mem p (k + 1 + 1) d root = some (l, src))
    (hroom : Room s (k + 1 + 1) src) {n : Nat} (hn : n ≤ pageFormat.width (k + 1 + 1)) :
    Ends PhysMem.pool s'.pool (loopRounds (cloneEntry (cloneTable k) src new) n s') := by
  refine Ends.loopRounds fun i hi st hst => ?_
  have hwide := Follows.loopRounds (fun i s =>
    cloneEntry_widen (cloneTable_widen k) src new i s) s' i st hst
  have hupto := hstart.entryRounds (cloneTable_spec k hk) hc hp hheight hd hroom
    (by omega) hwide
  exact entryStep_ends hclone hupto hc hp hheight hd (by omega) hroom

theorem cloneTable_ends : ∀ k, k < 3 → CloneEnds held root k (cloneTable k)
  | 0, _ => by
      intro d src p l s rest hheight hc hp hd hroom
      obtain rfl : d = 3 := by omega
      rw [cloneTable]
      refine (allocatePhysicalPage_ends s).bind fun r halloc => ?_
      obtain ⟨new, s₁⟩ := r
      have hstart := CloneUpTo.start hc (allocatePhysicalPage_widen s _ halloc) p 0 src
      suffices hloop : CloneUpTo held root rest p 0 src new 512 s.widen
          (loopPure (cloneLeaf src new) 512 s₁).widen ∧
          s₁.pool.Reaches (loopPure (cloneLeaf src new) 512 s₁).pool from .ok hloop.2
      refine loopPure_induct (P := fun n (st : PhysMem) =>
        CloneUpTo held root rest p 0 src new n s.widen st.widen ∧
          s₁.pool.Reaches st.pool) ⟨hstart, .refl _⟩ ?_
      rintro n hn st ⟨hst, hreach⟩
      refine ⟨?_, hreach.trans (cloneLeaf_reaches fun hpres => ?_)⟩
      · rw [← cloneLeaf_widen]
        exact hst.leafStep hc hp hd hn hroom
      · obtain ⟨huse, -, -⟩ := hst.shapeBelow hc rfl hp hd
        obtain ⟨hword, hused, hfits⟩ := hst.leaf_ready hc hp hd hn hroom
          ((hst.shape src huse n).1.symm.trans hpres)
        have hword : st.mem src n = s.mem src n := hword
        rw [hword]
        exact ⟨hused, hfits⟩
  | k + 1, hk => by
      intro d src p l s rest hheight hc hp hd hroom
      have hwidth : pageFormat.width (k + 1 + 1) = 512 := if_neg (by omega)
      rw [cloneTable]
      refine (allocatePhysicalPage_ends s).bind fun r halloc => ?_
      obtain ⟨new, s₁⟩ := r
      have hstart := CloneUpTo.start hc (allocatePhysicalPage_widen s _ halloc) p (k + 1) src
      have hrounds := entryRounds_ends (by omega) (cloneTable_ends k (by omega)) hstart hc
        hp hheight hd hroom (Nat.le_of_eq hwidth.symm)
      exact hrounds.bind fun _ _ => .ok (.refl _)

theorem rootRounds_ends {new : Nat} {rest : List (Nat × Nat)}
    (hstart : CloneUpTo held root rest (vpath 0) 3 root new 0 s.widen s'.widen)
    (hc : Counted s.widen held ((4, root) :: rest)) (hroom : Room s 4 root) (n : Nat) :
    Ends PhysMem.pool s'.pool (loopRounds (cloneRound root new) n s') := by
  refine Ends.loopRounds fun i _ st hst => ?_
  have hwide := Follows.loopRounds (fun i s => cloneRound_widen root new i s) s' i st hst
  have hupto := hstart.rootRounds hc hroom hwide
  rw [cloneRound]
  split
  · exact .ok (.refl _)
  · rename_i hlow
    rw [show min i 256 = i by omega] at hupto
    exact entryStep_ends (d := 0) (l := []) (cloneTable_ends 2 (by decide)) hupto hc
      (vpath_inRange (by decide)) rfl rfl (by change i < 256; omega) hroom

theorem clonePageTables_ends {rest : List (Nat × Nat)}
    (hc : Counted s.widen held ((4, root) :: rest)) (hroom : Room s 4 root) :
    Ends (fun r => r.2.pool) s.pool (clonePageTables s root) := by
  rw [clonePageTables]
  refine (allocatePhysicalPage_ends s).bind fun r halloc => ?_
  obtain ⟨new, s₁⟩ := r
  have hstart := CloneUpTo.start hc (allocatePhysicalPage_widen s _ halloc) (vpath 0) 3 root
  exact (rootRounds_ends hstart hc hroom 512).bind fun _ _ => .ok (.refl _)

end Clone

end GlitchedOS
