/-
The tables the boot loader built may lie above the last usable frame.  To count them
with the others, the memory is looked at as if all `2 ^ 40` frames were usable.  A
call that returns does the same there, since the search of `get_available_address`
comes to the same frame.
-/
import GlitchedOS.Paging.Region
import GlitchedOS.Paging.Clone

namespace GlitchedOS

variable {s s' : PhysMem}

namespace PhysMem

/-- The same memory with every frame usable. -/
def widen (s : PhysMem) : PhysMem :=
  { s with usablePageCount := 2 ^ 40, usable_le := Nat.le_refl _ }

@[simp] theorem widen_mem (s : PhysMem) : s.widen.mem = s.mem := rfl
@[simp] theorem widen_memoryBitmap (s : PhysMem) :
    s.widen.memoryBitmap = s.memoryBitmap := rfl
@[simp] theorem widen_usablePageCount (s : PhysMem) :
    s.widen.usablePageCount = 2 ^ 40 := rfl

theorem widen_decCount (s : PhysMem) (f : Nat) :
    s.widen.decCount f = (s.decCount f).widen := by
  rw [decCount_eq, decCount_eq]
  rfl

end PhysMem

/-- `y` returns what `x` returns, seen through `w`. -/
def Follows {α β : Type} (w : α → β) (x : Except Panic α) (y : Except Panic β) : Prop :=
  ∀ a, x = .ok a → y = .ok (w a)

namespace Follows

variable {α β γ δ : Type} {w : α → β} {w' : γ → δ}

theorem ok (a : α) : Follows w (.ok a) (.ok (w a)) := by
  intro b h
  rw [Except.ok.inj h]

theorem error (reason : Panic) (y : Except Panic β) : Follows w (.error reason) y := by
  intro a h
  cases h

theorem bind {x : Except Panic α} {y : Except Panic β} {f : α → Except Panic γ}
    {g : β → Except Panic δ} (h : Follows w x y)
    (hf : ∀ a, Follows w' (f a) (g (w a))) : Follows w' (x >>= f) (y >>= g) := by
  intro c hc
  rw [bind_ok] at hc
  obtain ⟨a, ha, hc⟩ := hc
  rw [h a ha]
  exact hf a c hc

theorem ite {c : Prop} {d d' : Decidable c} {x x' : Except Panic α} {y y' : Except Panic β}
    (hpos : c → Follows w x y) (hneg : ¬ c → Follows w x' y') :
    Follows w (@ite _ c d x x') (@ite _ c d' y y') := by
  by_cases h : c
  · rw [if_pos h, if_pos h]
    exact hpos h
  · rw [if_neg h, if_neg h]
    exact hneg h

theorem loopRounds {body : Nat → α → Except Panic α} {body' : Nat → β → Except Panic β}
    (hbody : ∀ k a, Follows w (body k a) (body' k (w a))) (a : α) :
    ∀ n, Follows w (GlitchedOS.loopRounds body n a) (GlitchedOS.loopRounds body' n (w a))
  | 0 => .ok a
  | n + 1 => by
      rw [GlitchedOS.loopRounds, GlitchedOS.loopRounds]
      exact (loopRounds hbody a n).bind (hbody n)

end Follows

theorem loopPure_map {S T : Type} {body : Nat → S → S} {body' : Nat → T → T} {w : S → T}
    (hbody : ∀ k s, body' k (w s) = w (body k s)) (s : S) :
    ∀ n, loopPure body' n (w s) = w (loopPure body n s)
  | 0 => rfl
  | n + 1 => by
      rw [loopPure, loopPure, loopPure_map hbody s n, hbody]

def widenSnd {α : Type} (r : α × PhysMem) : α × PhysMem := (r.1, r.2.widen)

theorem findAvailable_mono {bitmap : Nat → Nat} :
    ∀ {n n' i f : Nat}, findAvailable bitmap n i = some f → n ≤ n' →
      findAvailable bitmap n' i = some f
  | 0, _, _, _, h, _ => by cases h
  | n + 1, 0, _, _, _, hle => by omega
  | n + 1, n' + 1, i, f, h, hle => by
      by_cases hfree : bitmap i = 0
      · rw [findAvailable, if_pos hfree] at h ⊢
        exact h
      · rw [findAvailable, if_neg hfree] at h ⊢
        exact findAvailable_mono h (Nat.le_of_succ_le_succ hle)

theorem getAvailableAddress_widen (s : PhysMem) :
    Follows widenSnd (getAvailableAddress s) (getAvailableAddress s.widen) := by
  rintro ⟨f, s'⟩ h
  rw [getAvailableAddress] at h
  split at h
  · rename_i i hfind
    cases h
    have hwide : findAvailable s.widen.memoryBitmap
        (s.widen.usablePageCount - s.widen.firstUsable) s.widen.firstUsable = some f :=
      findAvailable_mono hfind (Nat.sub_le_sub_right s.usable_le _)
    rw [getAvailableAddress, hwide]
    rfl
  · cases h

theorem allocatePhysicalPage_widen (s : PhysMem) :
    Follows widenSnd (allocatePhysicalPage s) (allocatePhysicalPage s.widen) :=
  (getAvailableAddress_widen s).bind fun _ => .ok _

theorem tableAt_widen (s : PhysMem) (t i : Nat) :
    Follows widenSnd (tableAt s t i) (tableAt s.widen t i) := by
  rw [tableAt, tableAt]
  refine .ite (fun _ => .ok _) fun _ => (allocatePhysicalPage_widen s).bind fun a => ?_
  exact .ite (fun _ => .error _ _) fun _ => .ok _

theorem cachedTable_widen (changed : Bool) (cached : Nat) (s : PhysMem) (t i : Nat) :
    Follows widenSnd (cachedTable changed cached s t i)
      (cachedTable changed cached s.widen t i) := by
  rw [cachedTable, cachedTable]
  split
  · exact tableAt_widen s t i
  · exact .ok _

theorem regionRound_widen (root vaddr : Nat) (flags : Flags) (k : Nat)
    (state : Cursor × PhysMem) :
    Follows widenSnd (regionRound root vaddr flags k state)
      (regionRound root vaddr flags k (widenSnd state)) := by
  obtain ⟨c, s⟩ := state
  rw [regionRound, regionRound, allocRound, allocRound]
  refine (cachedTable_widen c.pml4Changed c.pdpt s root _).bind fun a => ?_
  refine (cachedTable_widen c.pdptChanged c.pd a.2 a.1 _).bind fun b => ?_
  refine (cachedTable_widen c.pdChanged c.pt b.2 b.1 _).bind fun d => ?_
  set s₁ := orWord (orWord (orWord d.2 root c.idx.pml4Index higherLevelFlags) a.1
    c.idx.pdptIndex higherLevelFlags) b.1 c.idx.pdIndex higherLevelFlags
  refine .ite (fun _ => .error _ _) fun _ => ?_
  rw [regionLeaf, regionLeaf, bind_assoc, bind_assoc]
  exact (getAvailableAddress_widen s₁).bind fun _ => .ok _

theorem allocRegion64_widen (s : PhysMem) (root vaddr size : Nat) (flags : Flags) :
    Follows PhysMem.widen (allocRegion64 s root vaddr size flags)
      (allocRegion64 s.widen root vaddr size flags) := by
  rw [allocRegion64, allocRegion64]
  exact (Follows.loopRounds (w := widenSnd)
    (fun k state => regionRound_widen root vaddr flags k state)
    (Cursor.start vaddr, s) _).bind fun _ => .ok _

theorem resolveCow_widen (s : PhysMem) (pt i : Nat) :
    Follows widenSnd (resolveCow s pt i) (resolveCow s.widen pt i) := by
  rw [resolveCow, resolveCow]
  refine .ite (fun _ => .ite (fun _ => ?_) fun _ => .ok _) fun _ => .ok _
  exact (getAvailableAddress_widen s).bind fun _ => .ok _

theorem cowHandler_widen (s : PhysMem) (root addr : Nat) :
    Follows widenSnd (cowHandler s root addr) (cowHandler s.widen root addr) := by
  rw [cowHandler, cowHandler]
  refine .ite (fun _ => .ok _) fun _ => ?_
  refine .ite (fun _ => .ok _) fun _ => ?_
  refine .ite (fun _ => .ok _) fun _ => ?_
  refine .ite (fun _ => .ok _) fun _ => ?_
  exact resolveCow_widen s _ _

theorem releaseIfEmpty_widen (s : PhysMem) (table parent i : Nat) :
    releaseIfEmpty s.widen table parent i = (releaseIfEmpty s table parent i).widen := by
  rw [releaseIfEmpty, releaseIfEmpty]
  change (if tableEmpty s table then _ else _) = _
  split
  · rw [PhysMem.widen_decCount]
    rfl
  · rfl

theorem freePage_widen (s : PhysMem) (root page : Nat) :
    (freePage s.widen root page).2 = (freePage s root page).2.widen := by
  by_cases hpage : page = 0
  · rw [freePage, freePage, if_pos hpage, if_pos hpage]
  · cases h : pte s root page with
    | none =>
        have h' : pte s.widen root page = none := h
        rw [freePage_unmapped h, freePage_unmapped h']
    | some e =>
        obtain ⟨pdpt, pd, pt, hw, hpres, -⟩ := walked_of_pte h
        have hw' : Walked s.widen.mem root page pdpt pd pt := hw
        rw [freePage_mapped hpage hw hpres, freePage_mapped hpage hw' hpres]
        change releaseIfEmpty (releaseIfEmpty (releaseIfEmpty
          ((s.writeWord pt (vpath page 1) 0#64).widen.decCount _) _ _ _) _ _ _) _ _ _ = _
        rw [PhysMem.widen_decCount, releaseIfEmpty_widen, releaseIfEmpty_widen,
          releaseIfEmpty_widen]
        rfl

theorem freeTable_widen : ∀ (level n t : Nat) (s : PhysMem),
    freeTable level n t s.widen = (freeTable level n t s).widen
  | 0, n, t, s => by
      rw [freeTable, freeTable]
      refine loopPure_map (fun l s => ?_) s n
      rw [PhysMem.widen_mem, PhysMem.widen_decCount]
      split <;> rfl
  | level + 1, n, t, s => by
      rw [freeTable, freeTable]
      refine loopPure_map (fun i s => ?_) s n
      dsimp only
      rw [freeTable_widen level, PhysMem.widen_decCount, PhysMem.widen_mem]
      split <;> rfl

theorem freePageTables_widen (s : PhysMem) (root : Nat) :
    freePageTables s.widen root = (freePageTables s root).widen := by
  rw [freePageTables, freePageTables, freeTable_widen, PhysMem.widen_decCount]

theorem cloneLeaf_widen (src new l : Nat) (s : PhysMem) :
    cloneLeaf src new l s.widen = (cloneLeaf src new l s).widen := by
  cases h : present (s.mem src l) with
  | false =>
      have h' : present (s.widen.mem src l) = false := h
      rw [cloneLeaf_absent h, cloneLeaf_absent h']
  | true =>
      have h' : present (s.widen.mem src l) = true := h
      rw [cloneLeaf_present h, cloneLeaf_present h']
      rfl

theorem cloneEntry_widen {clone : Nat → PhysMem → Except Panic (Nat × PhysMem)}
    (hclone : ∀ src s, Follows widenSnd (clone src s) (clone src s.widen))
    (src new i : Nat) (s : PhysMem) :
    Follows PhysMem.widen (cloneEntry clone src new i s)
      (cloneEntry clone src new i s.widen) := by
  rw [cloneEntry, cloneEntry]
  exact .ite (fun _ => (hclone _ s).bind fun _ => .ok _) fun _ => .ok _

theorem cloneTable_widen : ∀ (level src : Nat) (s : PhysMem),
    Follows widenSnd (cloneTable level src s) (cloneTable level src s.widen)
  | 0, src, s => by
      rw [cloneTable, cloneTable]
      refine (allocatePhysicalPage_widen s).bind fun r => ?_
      dsimp only [widenSnd]
      rw [loopPure_map (fun l s => cloneLeaf_widen src r.1 l s)]
      exact .ok _
  | level + 1, src, s => by
      rw [cloneTable, cloneTable]
      refine (allocatePhysicalPage_widen s).bind fun r => ?_
      exact (Follows.loopRounds (fun i s =>
        cloneEntry_widen (cloneTable_widen level) src r.1 i s) r.2 512).bind fun _ => .ok _

theorem cloneRound_widen (root new i : Nat) (s : PhysMem) :
    Follows PhysMem.widen (cloneRound root new i s) (cloneRound root new i s.widen) := by
  rw [cloneRound, cloneRound]
  split
  · exact .ok _
  · exact cloneEntry_widen (cloneTable_widen 2) root new i s

theorem clonePageTables_widen (s : PhysMem) (root : Nat) :
    Follows widenSnd (clonePageTables s root) (clonePageTables s.widen root) := by
  rw [clonePageTables, clonePageTables]
  refine (allocatePhysicalPage_widen s).bind fun r => ?_
  exact (Follows.loopRounds (fun i s => cloneRound_widen root r.1 i s) r.2 512).bind
    fun _ => .ok _

end GlitchedOS
