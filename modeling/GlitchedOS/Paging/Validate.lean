/-
`validate_user_pointer`.  The loop tests one address of each page it visits, so
the pages it visits are the pages of the first address plus multiples of the
page size; the last byte of the range may lie one page further on.
-/
import GlitchedOS.Paging.System

namespace GlitchedOS

open Radix

variable {s s' : PhysMem} {root : Nat} {level : Nat → Nat} {write : Bool}

def userEntry (e : Word) : Bool := present e && hasFlag e flagsUser

/-- The four entries of the walk to an address. -/
def pml4Entry (s : PhysMem) (root addr : Nat) : Word :=
  s.mem root (getPageEntry addr).pml4Index

def pdptEntry (s : PhysMem) (root addr : Nat) : Word :=
  s.mem (frameOf (pml4Entry s root addr)) (getPageEntry addr).pdptIndex

def pdEntry (s : PhysMem) (root addr : Nat) : Word :=
  s.mem (frameOf (pdptEntry s root addr)) (getPageEntry addr).pdIndex

def ptEntry (s : PhysMem) (root addr : Nat) : Word :=
  s.mem (frameOf (pdEntry s root addr)) (getPageEntry addr).ptIndex

/-- User code may read the byte at `addr`, and write it when `write` is set. -/
def userMapped (s : PhysMem) (root addr : Nat) (write : Bool) : Bool :=
  userEntry (pml4Entry s root addr) && userEntry (pdptEntry s root addr) &&
    userEntry (pdEntry s root addr) && userEntry (ptEntry s root addr) &&
    (!write || hasFlag (ptEntry s root addr) flagsRw)

theorem userMapped_iff {addr : Nat} : userMapped s root addr write = true ↔
    userEntry (pml4Entry s root addr) = true ∧
      userEntry (pdptEntry s root addr) = true ∧
      userEntry (pdEntry s root addr) = true ∧
      userEntry (ptEntry s root addr) = true ∧
      (write = true → hasFlag (ptEntry s root addr) flagsRw = true) := by
  simp only [userMapped, Bool.and_eq_true, Bool.or_eq_true,
    Bool.not_eq_true', and_assoc]
  cases write <;> simp

theorem getPageEntry_congr {a b : Nat} (h : a / pageSize = b / pageSize) :
    getPageEntry a = getPageEntry b := by
  simp only [pageSize] at h
  simp only [getPageEntry, PageAddress.mk.injEq]
  omega

theorem userMapped_congr {a b : Nat} (h : a / pageSize = b / pageSize) :
    userMapped s root a write = userMapped s root b write := by
  rw [userMapped, userMapped, ptEntry, ptEntry, pdEntry, pdEntry, pdptEntry,
    pdptEntry, pml4Entry, pml4Entry, getPageEntry_congr h]

/-- The tables of the address space stand each at one level, and none of them is
a free frame. -/
structure TablesApart (s : PhysMem) (root : Nat) (level : Nat → Nat) :
    Prop where
  top : level root = 4
  link : ∀ t i, 2 ≤ level t → i < pageFormat.width (level t) →
    present (s.mem t i) = true → level (frameOf (s.mem t i)) + 1 = level t
  free : ∀ f < s.usablePageCount, s.memoryBitmap f = 0 → level f = 0

theorem Counted.tablesApart {held : Nat → Nat} {rest : List (Nat × Nat)}
    (hc : Counted s held ((4, root) :: rest)) :
    ∃ level, TablesApart s root level := by
  obtain ⟨level, hlevel⟩ := Exclusive.exists_levels pageFormat
    (hc.exclusive (k := 3) (d := 0))
  refine ⟨level, hlevel.top, hlevel.link, ?_⟩
  intro f hf hfree
  by_contra hne
  have hpos := hlevel.table f hne
  obtain ⟨-, htab, -⟩ := hc.fresh hf hfree
  rw [forestTables_cons] at htab
  change 0 < tableCount pageFormat s.mem 4 root f at hpos
  omega

/-- The tables on the way to an address, with their levels. -/
theorem TablesApart.walk (h : TablesApart s root level) {addr : Nat}
    (haddr : addr < lowerHalf) (hmap : userMapped s root addr write = true) :
    level (frameOf (pml4Entry s root addr)) = 3 ∧
      level (frameOf (pdptEntry s root addr)) = 2 ∧
      level (frameOf (pdEntry s root addr)) = 1 := by
  obtain ⟨h4, h3, h2, -, -⟩ := userMapped_iff.mp hmap
  simp only [userEntry, Bool.and_eq_true] at h4 h3 h2
  have hp := vpath_inRange haddr
  have hl4 := h.link root (getPageEntry addr).pml4Index (by rw [h.top]; decide)
    (by rw [h.top]; exact hp 4) h4.1
  have hl3 : level (frameOf (pml4Entry s root addr)) = 3 := by
    rw [h.top] at hl4
    rw [pml4Entry]
    omega
  have hl2 := h.link (frameOf (pml4Entry s root addr))
    (getPageEntry addr).pdptIndex (by rw [hl3]; decide)
    (by rw [hl3]; exact hp 3) h3.1
  have hl2 : level (frameOf (pdptEntry s root addr)) = 2 := by
    rw [hl3] at hl2
    rw [pdptEntry]
    omega
  have hl1 := h.link (frameOf (pdptEntry s root addr))
    (getPageEntry addr).pdIndex (by rw [hl2]) (by rw [hl2]; exact hp 2) h2.1
  refine ⟨hl3, hl2, ?_⟩
  rw [hl2] at hl1
  rw [pdEntry]
  omega

/-- A change of memory that leaves the links alone and makes no PTE worse. -/
structure KeepsPages (level : Nat → Nat) (s s' : PhysMem) : Prop where
  links : ∀ t, 2 ≤ level t → s'.mem t = s.mem t
  leaves : ∀ t i, level t = 1 → userEntry (s.mem t i) = true →
    userEntry (s'.mem t i) = true ∧
      (hasFlag (s.mem t i) flagsRw = true → hasFlag (s'.mem t i) flagsRw = true)
  usable : s'.usablePageCount = s.usablePageCount
  free : ∀ f, s'.memoryBitmap f = 0 → s.memoryBitmap f = 0

theorem KeepsPages.tablesApart (hk : KeepsPages level s s')
    (h : TablesApart s root level) : TablesApart s' root level := by
  refine ⟨h.top, ?_, ?_⟩
  · intro t i hlevel hi hpres
    rw [hk.links t hlevel] at hpres ⊢
    exact h.link t i hlevel hi hpres
  · intro f hf hfree
    exact h.free f (hk.usable ▸ hf) (hk.free f hfree)

/-- The walk to a mapped page passes the same words after the change. -/
theorem KeepsPages.entries (hk : KeepsPages level s s')
    (h : TablesApart s root level) {addr : Nat} (haddr : addr < lowerHalf)
    (hmap : userMapped s root addr write = true) :
    pml4Entry s' root addr = pml4Entry s root addr ∧
      pdptEntry s' root addr = pdptEntry s root addr ∧
      pdEntry s' root addr = pdEntry s root addr := by
  obtain ⟨hl3, hl2, -⟩ := h.walk haddr hmap
  have h4 : pml4Entry s' root addr = pml4Entry s root addr := by
    rw [pml4Entry, hk.links root (by rw [h.top]; decide)]
    rfl
  have h3 : pdptEntry s' root addr = pdptEntry s root addr := by
    rw [pdptEntry, h4, hk.links _ (by rw [hl3]; decide)]
    rfl
  refine ⟨h4, h3, ?_⟩
  rw [pdEntry, h3, hk.links _ (by rw [hl2])]
  rfl

theorem KeepsPages.userMapped (hk : KeepsPages level s s')
    (h : TablesApart s root level) {addr : Nat} (haddr : addr < lowerHalf)
    (hmap : GlitchedOS.userMapped s root addr write = true) :
    GlitchedOS.userMapped s' root addr write = true := by
  obtain ⟨h4, h3, h2⟩ := hk.entries h haddr hmap
  obtain ⟨-, -, hl1⟩ := h.walk haddr hmap
  obtain ⟨hu4, hu3, hu2, hu1, hrw⟩ := userMapped_iff.mp hmap
  obtain ⟨hleaf, hleafRw⟩ := hk.leaves _ (getPageEntry addr).ptIndex hl1 hu1
  rw [userMapped_iff, ptEntry, h2, h3, h4]
  exact ⟨hu4, hu3, hu2, hleaf, fun hwrite => hleafRw (hrw hwrite)⟩

/-- `cow_handler` on a mapped page is `resolve_cow` on its PTE. -/
theorem cowHandler_userMapped {addr : Nat}
    (hmap : userMapped s root addr write = true) :
    cowHandler s root addr = resolveCow s (frameOf (pdEntry s root addr))
      (getPageEntry addr).ptIndex := by
  obtain ⟨h4, h3, h2, h1, -⟩ := userMapped_iff.mp hmap
  simp only [userEntry, Bool.and_eq_true] at h4 h3 h2 h1
  have hp4 := h4.1
  have hp3 := h3.1
  have hp2 := h2.1
  have hp1 := h1.1
  simp only [ptEntry, pdEntry, pdptEntry, pml4Entry] at hp4 hp3 hp2 hp1 ⊢
  rw [cowHandler]
  simp only [hp4, hp3, hp2, hp1, Bool.not_true, Bool.false_eq_true, if_false]

/-- `cow_handler` makes the page writable and no other page worse. -/
theorem cowHandler_keepsPages (h : TablesApart s root level) {addr : Nat}
    {b : Bool} (haddr : addr < lowerHalf)
    (hmap : userMapped s root addr false = true)
    (hcow : hasFlag (ptEntry s root addr) flagsCow = true)
    (hok : cowHandler s root addr = .ok (b, s')) :
    KeepsPages level s s' ∧ userMapped s' root addr true = true := by
  obtain ⟨-, -, hl1⟩ := h.walk haddr hmap
  obtain ⟨-, -, -, hu1, -⟩ := userMapped_iff.mp hmap
  rw [cowHandler_userMapped hmap] at hok
  set pt := frameOf (pdEntry s root addr) with hpt
  set i := (getPageEntry addr).ptIndex with hi
  change hasFlag (s.mem pt i) flagsCow = true at hcow
  change userEntry (s.mem pt i) = true at hu1
  -- one word of `pt` changes, and perhaps a free frame
  have hfinal : ∀ e', userEntry e' = true → hasFlag e' flagsRw = true →
      (∀ t, level t ≠ 0 → s'.mem t =
        fun j => if t = pt ∧ j = i then e' else s.mem t j) →
      s'.usablePageCount = s.usablePageCount →
      (∀ f, s'.memoryBitmap f = 0 → s.memoryBitmap f = 0) →
      KeepsPages level s s' ∧ userMapped s' root addr true = true := by
    intro e' huser hrw hmem husable hfree
    have hkeep : KeepsPages level s s' := by
      refine ⟨?_, ?_, husable, hfree⟩
      · intro t ht
        have hne : t ≠ pt := by
          rintro rfl
          omega
        rw [hmem t (by omega)]
        simp only [hne, false_and, if_false]
      · intro t j ht hold
        rw [hmem t (by omega)]
        dsimp only
        split
        · exact ⟨huser, fun _ => hrw⟩
        · exact ⟨hold, id⟩
    refine ⟨hkeep, ?_⟩
    have hread := hkeep.userMapped h haddr hmap
    obtain ⟨-, -, h2⟩ := hkeep.entries h haddr hmap
    obtain ⟨hu4, hu3, hu2, hu1, -⟩ := userMapped_iff.mp hread
    refine userMapped_iff.mpr ⟨hu4, hu3, hu2, hu1, fun _ => ?_⟩
    rw [ptEntry, h2, ← hpt, hmem pt (by omega)]
    simp only [hi, and_self, if_true, hrw]
  rw [resolveCow] at hok
  dsimp only at hok
  rw [if_pos hcow] at hok
  simp only [userEntry, Bool.and_eq_true] at hu1
  split at hok
  · rename_i hshared
    rw [bind_ok] at hok
    obtain ⟨⟨new, s₁⟩, hget, hok⟩ := hok
    obtain ⟨hlt, hzero, rfl⟩ := getAvailableAddress_ok hget
    obtain ⟨-, rfl⟩ := Prod.mk.inj (Except.ok.inj hok)
    have hnew := h.free new hlt hzero
    have hptnew : pt ≠ new := by
      rintro hptnew
      rw [hptnew] at hl1
      omega
    obtain ⟨hpres', -, hrw', -, huser'⟩ := copiedWord_spec
      (Nat.lt_of_lt_of_le hlt s.usable_le) (s.mem pt i)
    refine hfinal ((frameAddress new &&& pageMask) |||
        (s.mem pt i &&& ~~~flagsCow &&& flagsMask) ||| flagsRw) ?_ hrw' ?_ rfl ?_
    · rw [userEntry, hpres', huser', hu1.1, hu1.2]
      rfl
    · intro t ht
      have htnew : t ≠ new := by
        rintro rfl
        exact ht hnew
      funext j
      simp only [PhysMem.writeWord_mem, Radix.write, PhysMem.copyFrame,
        PhysMem.setCount, if_neg htnew, if_neg hptnew]
    · intro f hf
      simp only [PhysMem.writeWord_memoryBitmap, PhysMem.copyFrame,
        PhysMem.setCount] at hf
      split at hf
      · cases hf
      · split at hf
        · omega
        · exact hf
  · obtain ⟨-, rfl⟩ := Prod.mk.inj (Except.ok.inj hok)
    obtain ⟨hpres', -, hrw', -, huser'⟩ := reusedWord_spec (s.mem pt i)
    refine hfinal ((s.mem pt i &&& ~~~flagsCow) ||| flagsRw) ?_ hrw' ?_ rfl
      fun _ => id
    · rw [userEntry, hpres', huser', hu1.1, hu1.2]
      rfl
    · intro t _
      funext j
      rw [orWord, PhysMem.writeWord_mem, PhysMem.writeWord_mem, write_write,
        write_same]
      rfl

/-! ### The loop -/

theorem validatePage_eq (s : PhysMem) (root addr : Nat) (write : Bool) :
    validatePage s root addr write =
      if userMapped s root addr write then .ok (true, s)
      else if userMapped s root addr false &&
          hasFlag (ptEntry s root addr) flagsCow then cowHandler s root addr
      else .ok (false, s) := by
  have hnot : ∀ e, (!present e || !hasFlag e flagsUser) = !userEntry e := by
    intro e
    rw [userEntry, Bool.not_and]
  have hunfold : validatePage s root addr write =
      if !userEntry (pml4Entry s root addr) then .ok (false, s)
      else if !userEntry (pdptEntry s root addr) then .ok (false, s)
      else if !userEntry (pdEntry s root addr) then .ok (false, s)
      else if !userEntry (ptEntry s root addr) then .ok (false, s)
      else if write && !hasFlag (ptEntry s root addr) flagsRw then
        if hasFlag (ptEntry s root addr) flagsCow then cowHandler s root addr
        else .ok (false, s)
      else .ok (true, s) := by
    simp only [validatePage, hnot]
    rfl
  rw [hunfold, userMapped, userMapped]
  cases h4 : userEntry (pml4Entry s root addr) with
  | false => simp
  | true =>
      cases h3 : userEntry (pdptEntry s root addr) with
      | false => simp
      | true =>
          cases h2 : userEntry (pdEntry s root addr) with
          | false => simp
          | true =>
              cases h1 : userEntry (ptEntry s root addr) <;>
                cases hasFlag (ptEntry s root addr) flagsRw <;>
                cases write <;> simp

/-- The pages found mapped, and those of the `n` rounds from `addr` on, are
mapped when the loop ends with `0`. -/
theorem validateLoop_sound : ∀ {n addr : Nat} {s : PhysMem},
    (write = true → ∃ level, TablesApart s root level) →
    (∀ k < n, addr + k * pageSize < lowerHalf) →
    validateLoop root write n addr s = .ok (0, s') →
    ∀ a < lowerHalf, (userMapped s root a write = true ∨
      ∃ k < n, a / pageSize = (addr + k * pageSize) / pageSize) →
      userMapped s' root a write = true
  | 0, addr, s, _, _, h, a, ha, hpage => by
      obtain ⟨-, rfl⟩ := Prod.mk.inj (Except.ok.inj h)
      rcases hpage with hmap | ⟨k, hk, -⟩
      · exact hmap
      · exact absurd hk (Nat.not_lt_zero k)
  | n + 1, addr, s, hapart, hlow, h, a, ha, hpage => by
      rw [validateLoop, bind_ok] at h
      obtain ⟨⟨fine, s₁⟩, hround, h⟩ := h
      have haddr : addr < lowerHalf := by simpa using hlow 0 (Nat.succ_pos n)
      cases fine with
      | false =>
          obtain ⟨hcode, -⟩ := Prod.mk.inj (Except.ok.inj h)
          exact absurd hcode (by decide)
      | true =>
          -- the round keeps what is mapped and maps its own page
          have hstep : (write = true → ∃ level, TablesApart s₁ root level) ∧
              (∀ b < lowerHalf, userMapped s root b write = true →
                userMapped s₁ root b write = true) ∧
              userMapped s₁ root addr write = true := by
            rw [validatePage_eq] at hround
            split at hround
            · rename_i hmap
              obtain ⟨-, rfl⟩ := Prod.mk.inj (Except.ok.inj hround)
              exact ⟨hapart, fun _ _ => id, hmap⟩
            rename_i hnot
            split at hround
            · rename_i hcow
              rw [Bool.and_eq_true] at hcow
              have hwrite : write = true := by
                by_contra hread
                rw [Bool.not_eq_true] at hread
                rw [hread] at hnot
                exact hnot hcow.1
              obtain ⟨level, hlevel⟩ := hapart hwrite
              obtain ⟨hkeep, hrw⟩ := cowHandler_keepsPages hlevel haddr hcow.1
                hcow.2 hround
              exact ⟨fun _ => ⟨level, hkeep.tablesApart hlevel⟩,
                fun b hb => hkeep.userMapped hlevel hb, hwrite ▸ hrw⟩
            · cases hround
          obtain ⟨hapart₁, hkeep, hmap⟩ := hstep
          refine validateLoop_sound hapart₁ ?_ h a ha ?_
          · intro k hk
            have := hlow (k + 1) (by omega)
            rw [Nat.add_mul] at this
            omega
          · rcases hpage with hold | ⟨k, hk, hsame⟩
            · exact Or.inl (hkeep a ha hold)
            · cases k with
              | zero =>
                  rw [Nat.zero_mul, Nat.add_zero] at hsame
                  exact Or.inl ((userMapped_congr hsame).trans hmap)
              | succ k =>
                  refine Or.inr ⟨k, by omega, ?_⟩
                  rw [hsame]
                  congr 1
                  rw [Nat.add_mul]
                  omega

/-- Nothing changes when every visited page is mapped already. -/
theorem validateLoop_mapped : ∀ {n addr : Nat},
    (∀ k < n, userMapped s root (addr + k * pageSize) write = true) →
      validateLoop root write n addr s = .ok (0, s)
  | 0, _, _ => rfl
  | n + 1, addr, h => by
      have hfirst : userMapped s root addr write = true := by
        simpa using h 0 (Nat.succ_pos n)
      have hrest : ∀ k < n,
          userMapped s root (addr + pageSize + k * pageSize) write = true := by
        intro k hk
        have hnext := h (k + 1) (by omega)
        rwa [Nat.add_mul, Nat.one_mul, Nat.add_comm (k * pageSize),
          ← Nat.add_assoc] at hnext
      rw [validateLoop, validatePage_eq, if_pos hfirst]
      exact validateLoop_mapped hrest

/-! ### A hole in an address space -/

/-- The word that maps frame `f` for user code. -/
def userWord (f : Nat) : Word := mapWord f userFlags

/-- Every page of the lower half is mapped but the page of `hole`.  The frames
`6`, `5` and `4` are the tables on the way to it; all other walks share the
tables `3`, `2` and `1`. -/
def holedTable (hole : PageAddress) : Nat → Nat → Word
  | 7, i => userWord (if i = hole.pml4Index then 6 else 3)
  | 6, i => userWord (if i = hole.pdptIndex then 5 else 2)
  | 5, i => userWord (if i = hole.pdIndex then 4 else 1)
  | 4, i => if i = hole.ptIndex then 0#64 else userWord 0
  | 3, _ => userWord 2
  | 2, _ => userWord 1
  | 1, _ => userWord 0
  | _, _ => 0#64

def holedMemory (hole : PageAddress) : PhysMem where
  mem := holedTable hole
  memoryBitmap := fun _ => 1
  firstUsable := 0
  usablePageCount := 8
  zeroPage := 0
  usable_le := by decide

def holedLevel : Nat → Nat
  | 7 => 4
  | 6 | 3 => 3
  | 5 | 2 => 2
  | 4 | 1 => 1
  | _ => 0

theorem userWord_spec {f : Nat} (hf : f < 2 ^ 40) :
    present (userWord f) = true ∧ frameOf (userWord f) = f ∧
      userEntry (userWord f) = true ∧ hasFlag (userWord f) flagsRw = true := by
  obtain ⟨hpres, htarget, hrw, huser⟩ := mapWord_spec hf userFlags
  refine ⟨hpres, htarget, ?_, hrw.trans (by decide)⟩
  rw [userEntry, userWord, hpres, huser]
  decide

theorem holedMemory_tablesApart (hole : PageAddress) :
    TablesApart (holedMemory hole) 7 holedLevel := by
  refine ⟨rfl, ?_, fun f _ hfree => absurd hfree Nat.one_ne_zero⟩
  intro t i hlevel _ hpres
  have hword : ∀ f < 8, frameOf (userWord f) = f := fun f hf =>
    (userWord_spec (by omega)).2.1
  rw [holedMemory] at hpres ⊢
  match t with
  | 7 =>
      change holedLevel (frameOf (userWord _)) + 1 = 4
      split <;> rw [hword _ (by decide)] <;> rfl
  | 6 =>
      change holedLevel (frameOf (userWord _)) + 1 = 3
      split <;> rw [hword _ (by decide)] <;> rfl
  | 5 =>
      change holedLevel (frameOf (userWord _)) + 1 = 2
      split <;> rw [hword _ (by decide)] <;> rfl
  | 3 =>
      change holedLevel (frameOf (userWord 2)) + 1 = 3
      rw [hword _ (by decide)]
      rfl
  | 2 =>
      change holedLevel (frameOf (userWord 1)) + 1 = 2
      rw [hword _ (by decide)]
      rfl
  | 0 | 1 | 4 => exact absurd hlevel (by decide)
  | t + 8 => exact absurd hlevel (by change ¬ 2 ≤ 0; decide)

/-- A page is mapped when the walk to it passes user words only. -/
theorem userMapped_of_userWords {addr f₄ f₃ f₂ f₁ : Nat}
    (h4 : pml4Entry s root addr = userWord f₄)
    (h3 : pdptEntry s root addr = userWord f₃)
    (h2 : pdEntry s root addr = userWord f₂)
    (h1 : ptEntry s root addr = userWord f₁)
    (hlt : f₄ < 2 ^ 40 ∧ f₃ < 2 ^ 40 ∧ f₂ < 2 ^ 40 ∧ f₁ < 2 ^ 40) :
    userMapped s root addr write = true := by
  rw [userMapped_iff, h4, h3, h2, h1]
  exact ⟨(userWord_spec hlt.1).2.2.1, (userWord_spec hlt.2.1).2.2.1,
    (userWord_spec hlt.2.2.1).2.2.1, (userWord_spec hlt.2.2.2).2.2.1,
    fun _ => (userWord_spec hlt.2.2.2).2.2.2⟩

theorem holedMemory_userMapped (hole addr : Nat) (write : Bool) :
    userMapped (holedMemory (getPageEntry hole)) 7 addr write = true ↔
      getPageEntry addr ≠ getPageEntry hole := by
  have hword : ∀ f < 8, frameOf (userWord f) = f := fun f hf =>
    (userWord_spec (by omega)).2.1
  set s := holedMemory (getPageEntry hole) with hs
  have e4 : pml4Entry s 7 addr = userWord (if (getPageEntry addr).pml4Index =
    (getPageEntry hole).pml4Index then 6 else 3) := rfl
  -- a walk that has left the way to the hole ends in a mapped page
  have hpd : pdEntry s 7 addr = userWord 1 → ptEntry s 7 addr = userWord 0 := by
    intro h
    rw [ptEntry, h, hword 1 (by decide)]
    rfl
  have hpdpt : pdptEntry s 7 addr = userWord 2 →
      pdEntry s 7 addr = userWord 1 := by
    intro h
    rw [pdEntry, h, hword 2 (by decide)]
    rfl
  by_cases h4 : (getPageEntry addr).pml4Index = (getPageEntry hole).pml4Index
  swap
  · rw [if_neg h4] at e4
    have e3 : pdptEntry s 7 addr = userWord 2 := by
      rw [pdptEntry, e4, hword 3 (by decide)]
      rfl
    have e2 := hpdpt e3
    refine iff_of_true (userMapped_of_userWords e4 e3 e2 (hpd e2) (by decide))
      fun heq => h4 (by rw [heq])
  rw [if_pos h4] at e4
  have e3 : pdptEntry s 7 addr = userWord (if (getPageEntry addr).pdptIndex =
      (getPageEntry hole).pdptIndex then 5 else 2) := by
    rw [pdptEntry, e4, hword 6 (by decide)]
    rfl
  by_cases h3 : (getPageEntry addr).pdptIndex = (getPageEntry hole).pdptIndex
  swap
  · rw [if_neg h3] at e3
    have e2 := hpdpt e3
    refine iff_of_true (userMapped_of_userWords e4 e3 e2 (hpd e2) (by decide))
      fun heq => h3 (by rw [heq])
  rw [if_pos h3] at e3
  have e2 : pdEntry s 7 addr = userWord (if (getPageEntry addr).pdIndex =
      (getPageEntry hole).pdIndex then 4 else 1) := by
    rw [pdEntry, e3, hword 5 (by decide)]
    rfl
  by_cases h2 : (getPageEntry addr).pdIndex = (getPageEntry hole).pdIndex
  swap
  · rw [if_neg h2] at e2
    refine iff_of_true (userMapped_of_userWords e4 e3 e2 (hpd e2) (by decide))
      fun heq => h2 (by rw [heq])
  rw [if_pos h2] at e2
  have e1 : ptEntry s 7 addr = if (getPageEntry addr).ptIndex =
      (getPageEntry hole).ptIndex then 0#64 else userWord 0 := by
    rw [ptEntry, e2, hword 4 (by decide)]
    rfl
  by_cases h1 : (getPageEntry addr).ptIndex = (getPageEntry hole).ptIndex
  · rw [if_pos h1] at e1
    refine iff_of_false ?_ (not_not_intro ?_)
    · rw [userMapped_iff, e1]
      rintro ⟨-, -, -, hnone, -⟩
      exact absurd hnone (by decide)
    · cases ha : getPageEntry addr
      cases hb : getPageEntry hole
      rw [ha, hb] at h4 h3 h2 h1
      exact PageAddress.mk.injEq .. ▸ ⟨h4, h3, h2, h1⟩
  · rw [if_neg h1] at e1
    refine iff_of_true (userMapped_of_userWords e4 e3 e2 e1 (by decide))
      fun heq => h1 (by rw [heq])

/-! ### The pages of a range -/

theorem visits_iff {ptr len : Nat} (hlen : 1 ≤ len) :
    (ptr + (len - 1)) / pageSize <
        ptr / pageSize + pageRounds ptr (ptr + len) ↔
      ptr % pageSize + (len - 1) % pageSize < pageSize := by
  simp only [pageRounds, pageSize]
  omega

/-- `validate_user_pointer` is sound for the ranges whose pages it all visits,
and for those it refuses, and for no other. -/
theorem validateUserPointer_sound_iff (ptr len : Nat) (write : Bool)
    (hlen : 1 ≤ len) :
    (∀ s root s', (write = true → ∃ level, TablesApart s root level) →
      validateUserPointer s root ptr len write = .ok (0, s') →
        ∀ a, ptr ≤ a → a < ptr + len →
          a ≤ userLimit ∧ userMapped s' root a write = true) ↔
      ptr = 0 ∨ userLimit < ptr + (len - 1) ∨
        ptr % pageSize + (len - 1) % pageSize < pageSize := by
  rw [← visits_iff hlen]
  have hlimit : userLimit + 1 = lowerHalf := by decide
  constructor
  · intro h
    by_contra hcond
    simp only [not_or, Nat.not_lt] at hcond
    obtain ⟨hptr, hfit, hmiss⟩ := hcond
    set hole := ptr + (len - 1) with hhole
    have hok : validateUserPointer (holedMemory (getPageEntry hole)) 7 ptr len
        write = .ok (0, holedMemory (getPageEntry hole)) := by
      rw [validateUserPointer, if_neg (by omega), if_neg hptr,
        if_neg (by omega), if_neg (by omega)]
      apply validateLoop_mapped
      intro k hk
      rw [holedMemory_userMapped]
      intro heq
      simp only [getPageEntry, PageAddress.mk.injEq] at heq
      simp only [pageRounds, pageSize, userLimit] at *
      omega
    obtain ⟨-, hmap⟩ := h _ 7 _ (fun _ => ⟨_, holedMemory_tablesApart _⟩) hok
      hole (by omega) (by omega)
    exact (holedMemory_userMapped hole hole write).mp hmap rfl
  · intro hcond s root s' hapart hok a hlo hhi
    rw [validateUserPointer, if_neg (by omega)] at hok
    split at hok
    · exact absurd (Prod.mk.inj (Except.ok.inj hok)).1 (by decide)
    rename_i hptr
    split at hok
    · exact absurd (Prod.mk.inj (Except.ok.inj hok)).1 (by decide)
    rename_i hlow
    split at hok
    · exact absurd (Prod.mk.inj (Except.ok.inj hok)).1 (by decide)
    rename_i hfit
    have hvisit := (hcond.resolve_left hptr).resolve_left (by omega)
    refine ⟨by omega, validateLoop_sound hapart ?_ hok a (by omega) (Or.inr
      ⟨a / pageSize - ptr / pageSize, ?_, ?_⟩)⟩
    · intro k hk
      simp only [pageRounds, pageSize] at *
      omega
    · simp only [pageRounds, pageSize] at *
      omega
    · simp only [pageSize] at *
      omega

/-- Ten bytes from `0x1000` on lie in one page. -/
theorem validateUserPointer_sound_tenBytes : 0 < 10 ∧ ∀ s root s',
    (∃ level, TablesApart s root level) →
      validateUserPointer s root 0x1000 10 true = .ok (0, s') →
        ∀ a, 0x1000 ≤ a → a < 0x1000 + 10 →
          a ≤ userLimit ∧ userMapped s' root a true = true := by
  refine ⟨by decide, fun s root s' hapart => ?_⟩
  exact (validateUserPointer_sound_iff 0x1000 10 true (by decide)).mpr
    (by decide) s root s' fun _ => hapart

def smallMemmap : Memmap where
  entries := [⟨pageSize, 15 * pageSize, true⟩]
  addr_le := by decide

/-- With only the page at `0x1000` mapped, two bytes at `0x1fff` are accepted
for writing. -/
theorem validateUserPointer_misses_page : ∃ s s₁ s₂,
    initPaging 100 smallMemmap (fun _ _ => 0#64) = .ok s ∧
    allocRegion s 100 0x1000 pageSize userFlags = .ok s₁ ∧
    (∃ level, TablesApart s₁ 100 level) ∧
    validateUserPointer s₁ 100 0x1fff 2 true = .ok (0, s₂) ∧
    userMapped s₂ 100 0x2000 true = false := by
  have hrun : (do
      let s ← initPaging 100 smallMemmap (fun _ _ => 0#64)
      let s ← allocRegion s 100 0x1000 pageSize userFlags
      let (result, s) ← validateUserPointer s 100 0x1fff 2 true
      .ok (decide (result = 0), userMapped s 100 0x2000 true)) =
        Except.ok (true, false) := by
    decide
  simp only [bind_ok] at hrun
  obtain ⟨s, hinit, s₁, halloc, ⟨result, s₂⟩, hvalid, hrun⟩ := hrun
  obtain ⟨hzero, hmap⟩ := Prod.mk.inj (Except.ok.inj hrun)
  obtain rfl : result = 0 := of_decide_eq_true hzero
  have hboot : BootTables 100 smallMemmap (fun _ _ => 0#64) :=
    ⟨by decide, fun _ _ => present_zero⟩
  have hcounted : Counted s (bootSystem 100 smallMemmap s).held [(4, 100)] :=
    (bootSystem_consistent hboot hinit).counted
  obtain ⟨hc, -⟩ := allocRegion_spec hcounted (by decide) halloc
  exact ⟨s, s₁, s₂, hinit, halloc, hc.tablesApart, hvalid, hmap⟩

end GlitchedOS
