/-
`validate_user_string`.  It validates the string chunk by chunk, each within one page,
and looks for the end of the string in a chunk only after the call that validated it;
so it answers for every byte up to the first zero, and reads no byte before its page is
validated.
-/
import GlitchedOS.Error
import GlitchedOS.Paging.Bytes
import GlitchedOS.Paging.Validate

namespace GlitchedOS

/-- What `validate_user_string` does with user memory. -/
inductive UserEvent where
  | validate (ptr len : Nat) (res : Int)
  | load (addr : Nat)
deriving Repr, DecidableEq

/-- What stops the kernel on the way. -/
inductive UserFault where
  | panic (why : Panic)
  | pageFault (addr : Nat)
deriving Repr, DecidableEq

/-- The inner loop of `validate_user_string`: whether one of `n` bytes is zero, up to the
first one that is. -/
def findZero (s : PhysMem) (root : Nat) : Nat → Nat → Except UserFault (Bool × List UserEvent)
  | 0, _ => .ok (false, [])
  | n + 1, addr =>
    match virtByte s root addr with
    | none => .error (.pageFault addr)
    | some b =>
      if b = 0 then .ok (true, [.load addr])
      else
        match findZero s root n ((addr + 1) % 2 ^ 64) with
        | .error fault => .error fault
        | .ok (found, events) => .ok (found, .load addr :: events)

/-- The bytes of a chunk: to the end of its page, or what is left of the string. -/
def chunkSize (addr left : Nat) : Nat := min (pageSize - addr % pageSize) left

theorem chunkSize_pos (addr : Nat) {left : Nat} (hleft : 0 < left) : 0 < chunkSize addr left := by
  unfold chunkSize pageSize
  omega

theorem chunkSize_le (addr left : Nat) : chunkSize addr left ≤ left :=
  Nat.min_le_right _ _

/-- The loop of `validate_user_string`, from index `i` on. -/
def validateStringFrom (root str maxLen i : Nat) (s : PhysMem) :
    Except UserFault (Int × PhysMem × List UserEvent) :=
  if _hi : i < maxLen then
    let ptr := (str + i) % 2 ^ 64
    let n := chunkSize ptr (maxLen - i)
    match validateUserPointer s root ptr n false with
    | .error why => .error (.panic why)
    | .ok (res, s) =>
      if res < 0 then .ok (res, s, [.validate ptr n res])
      else
        match findZero s root n ptr with
        | .error fault => .error fault
        | .ok (found, loads) =>
          if found then .ok (0, s, .validate ptr n res :: loads)
          else
            match validateStringFrom root str maxLen (i + n) s with
            | .error fault => .error fault
            | .ok (last, s, events) => .ok (last, s, .validate ptr n res :: (loads ++ events))
  else .ok (eNametoolong, s, [])
termination_by maxLen - i
decreasing_by
  have hpos := chunkSize_pos ((str + i) % 2 ^ 64) (Nat.sub_pos_of_lt _hi)
  omega

/-- `validate_user_string` -/
def validateUserString (s : PhysMem) (root str maxLen : Nat) :
    Except UserFault (Int × PhysMem × List UserEvent) :=
  if str = 0 then .ok (eFault, s, []) else validateStringFrom root str maxLen 0 s

/-- User code may read the byte at `addr`. -/
def Readable (s : PhysMem) (root addr : Nat) : Prop :=
  addr ≤ userLimit ∧ userMapped s root addr false = true

instance Readable.decidable (s : PhysMem) (root addr : Nat) : Decidable (Readable s root addr) :=
  inferInstanceAs (Decidable (_ ∧ _))

/-- A string ends at index `k`, and not before. -/
def FirstZero (s : PhysMem) (root str k : Nat) : Prop :=
  virtByte s root (str + k) = some 0 ∧ ∀ j < k, virtByte s root (str + j) ≠ some 0

/-- Each load is behind a validation, without error, of a range with its address. -/
def LoadsValidated (events : List UserEvent) : Prop :=
  ∀ before addr after, events = before ++ .load addr :: after →
    ∃ ptr len, .validate ptr len 0 ∈ before ∧ ptr ≤ addr ∧ addr < ptr + len

variable {s : PhysMem} {root str maxLen addr n i k : Nat}

theorem readable_congr {a b : Nat} (h : a / pageSize = b / pageSize) :
    Readable s root a ↔ Readable s root b := by
  have hmapped : userMapped s root a false = userMapped s root b false := userMapped_congr h
  have hlimit : a ≤ userLimit ↔ b ≤ userLimit := by
    simp only [pageSize] at h
    simp only [userLimit]
    omega
  rw [Readable, Readable, hmapped, hlimit]

theorem Readable.virtByte (h : Readable s root addr) :
    ∃ b, GlitchedOS.virtByte s root addr = some b := by
  obtain ⟨hlimit, hmapped⟩ := h
  obtain ⟨h4, h3, h2, h1, -⟩ := userMapped_iff.mp hmapped
  simp only [userEntry, Bool.and_eq_true] at h4 h3 h2 h1
  have hpte : pte s root addr = some (ptEntry s root addr) := by
    rw [pte_eq]
    dsimp only
    have hp4 := h4.1
    have hp3 := h3.1
    have hp2 := h2.1
    have hp1 := h1.1
    simp only [ptEntry, pdEntry, pdptEntry, pml4Entry] at hp4 hp3 hp2 hp1 ⊢
    rw [if_pos hp4, if_pos hp3, if_pos hp2, if_pos hp1]
  have hcanonical : Canonical addr := by
    simp only [userLimit] at hlimit
    exact .inl (by simp only [lowerHalf]; omega)
  refine ⟨s.byteAt (frameOf (ptEntry s root addr)) (addr % pageSize), ?_⟩
  rw [GlitchedOS.virtByte, translate, if_pos hcanonical, hpte]
  rfl

theorem chunk_page {left : Nat} (hk : k < chunkSize addr left) :
    (addr + k) / pageSize = addr / pageSize := by
  simp only [chunkSize, pageSize] at hk ⊢
  omega

theorem validate_chunk {left : Nat} (haddr : addr ≠ 0) (hleft : 0 < left) :
    validateUserPointer s root addr (chunkSize addr left) false =
      .ok (if Readable s root addr then 0 else eFault, s) := by
  have hpos := chunkSize_pos addr hleft
  rw [validateUserPointer, if_neg hpos.ne', if_neg haddr]
  by_cases hlimit : addr ≤ userLimit
  · have hroom : ¬ userLimit - addr < chunkSize addr left - 1 := by
      simp only [chunkSize, pageSize, userLimit] at hlimit ⊢
      omega
    have hrounds : pageRounds addr (addr + chunkSize addr left) = 1 := by
      simp only [pageRounds, chunkSize, pageSize] at hpos ⊢
      omega
    rw [if_neg (Nat.not_lt.mpr hlimit), if_neg hroom, hrounds, validateLoop, validatePage_eq]
    by_cases hmapped : userMapped s root addr false = true
    · rw [if_pos hmapped, if_pos ⟨hlimit, hmapped⟩]
      rfl
    · rw [if_neg hmapped, if_neg (by simp [hmapped]), if_neg fun h : Readable s root addr =>
        hmapped h.2]
      rfl
  · rw [if_pos (Nat.lt_of_not_le hlimit), if_neg fun h => hlimit h.1]

/-- In readable bytes the inner loop finds the first zero, or none. -/
theorem findZero_readable (hreadable : ∀ j < n, Readable s root (addr + j)) :
    ∃ found loads, findZero s root n addr = .ok (found, loads) ∧
      (∀ event ∈ loads, ∃ j < n, event = .load (addr + j)) ∧
      (found = true → ∃ k < n, FirstZero s root addr k) ∧
      (found = false → ∀ j < n, virtByte s root (addr + j) ≠ some 0) := by
  induction n generalizing addr with
  | zero =>
      refine ⟨false, [], rfl, ?_, fun h => Bool.noConfusion h, fun _ j hj => ?_⟩
      · intro event h
        cases h
      · exact absurd hj (Nat.not_lt_zero j)
  | succ n ih =>
      obtain ⟨b, hb⟩ := (hreadable 0 (Nat.succ_pos n)).virtByte
      rw [Nat.add_zero] at hb
      by_cases hzero : b = 0
      · subst hzero
        refine ⟨true, [.load addr], ?_, ?_, fun _ => ⟨0, Nat.succ_pos n, hb, ?_⟩, nofun⟩
        · simp [findZero, hb]
        · intro event hevent
          exact ⟨0, Nat.succ_pos n, List.mem_singleton.mp hevent⟩
        · intro j hj
          exact absurd hj (Nat.not_lt_zero j)
      · have hnext : ∀ j, addr + 1 + j = addr + (j + 1) := fun j => by omega
        have hreadable' : ∀ j < n, Readable s root (addr + 1 + j) := fun j hj =>
          hnext j ▸ hreadable (j + 1) (Nat.succ_lt_succ hj)
        obtain ⟨found, loads, hrun, hloads, hfound, hnone⟩ := ih hreadable'
        have hfirst : virtByte s root addr ≠ some 0 := by
          rw [hb]
          exact fun h => hzero (Option.some.inj h)
        have hwrap : (addr + 1) % 2 ^ 64 = addr + 1 := by
          have hlimit := (hreadable 0 (Nat.succ_pos n)).1
          simp only [userLimit] at hlimit
          omega
        refine ⟨found, .load addr :: loads, ?_, ?_, ?_, ?_⟩
        · simp only [findZero, hb, if_neg hzero, hwrap, hrun]
        · intro event hevent
          rcases List.mem_cons.mp hevent with rfl | hevent
          · exact ⟨0, Nat.succ_pos n, rfl⟩
          · obtain ⟨j, hj, rfl⟩ := hloads event hevent
            exact ⟨j + 1, Nat.succ_lt_succ hj, by rw [hnext]⟩
        · intro h
          obtain ⟨k, hk, hzero, hbefore⟩ := hfound h
          refine ⟨k + 1, Nat.succ_lt_succ hk, hnext k ▸ hzero, fun j hj => ?_⟩
          cases j with
          | zero => exact hfirst
          | succ j => exact hnext j ▸ hbefore j (Nat.lt_of_succ_lt_succ hj)
        · intro h j hj
          cases j with
          | zero => exact hfirst
          | succ j => exact hnext j ▸ hnone h j (Nat.lt_of_succ_lt_succ hj)

/-- The answers for a string whose first `i` bytes are readable and not zero. -/
inductive StringAnswer (s : PhysMem) (root str maxLen i : Nat) : Int → Prop where
  | ends {k : Nat} (hlo : i ≤ k) (hk : k < maxLen)
      (hreadable : ∀ j, i ≤ j → j ≤ k → Readable s root (str + j))
      (hzero : virtByte s root (str + k) = some 0)
      (hfirst : ∀ j, i ≤ j → j < k → virtByte s root (str + j) ≠ some 0) :
      StringAnswer s root str maxLen i 0
  | tooLong
      (hbytes : ∀ j, i ≤ j → j < maxLen →
        Readable s root (str + j) ∧ virtByte s root (str + j) ≠ some 0) :
      StringAnswer s root str maxLen i eNametoolong
  | faults {k : Nat} (hlo : i ≤ k) (hk : k < maxLen) (hfault : ¬ Readable s root (str + k))
      (hfirst : ∀ j, i ≤ j → j < k → virtByte s root (str + j) ≠ some 0) :
      StringAnswer s root str maxLen i eFault

theorem StringAnswer.before {res : Int}
    (hbytes : ∀ j < n, Readable s root (str + (i + j)) ∧
      virtByte s root (str + (i + j)) ≠ some 0)
    (h : StringAnswer s root str maxLen (i + n) res) : StringAnswer s root str maxLen i res := by
  have hchunk : ∀ j, i ≤ j → j < i + n →
      Readable s root (str + j) ∧ virtByte s root (str + j) ≠ some 0 := by
    intro j hlo hhi
    obtain ⟨d, rfl⟩ := Nat.exists_eq_add_of_le hlo
    exact hbytes d (Nat.lt_of_add_lt_add_left hhi)
  cases h with
  | ends hlo hk hreadable hzero hfirst =>
      refine .ends (Nat.le_of_add_right_le hlo) hk (fun j hij hjk => ?_) hzero fun j hij hjk => ?_
      · rcases Nat.lt_or_ge j (i + n) with hin | hout
        · exact (hchunk j hij hin).1
        · exact hreadable j hout hjk
      · rcases Nat.lt_or_ge j (i + n) with hin | hout
        · exact (hchunk j hij hin).2
        · exact hfirst j hout hjk
  | tooLong hrest =>
      refine .tooLong fun j hij hj => ?_
      rcases Nat.lt_or_ge j (i + n) with hin | hout
      · exact hchunk j hij hin
      · exact hrest j hout hj
  | faults hlo hk hfault hfirst =>
      refine .faults (Nat.le_of_add_right_le hlo) hk hfault fun j hij hjk => ?_
      rcases Nat.lt_or_ge j (i + n) with hin | hout
      · exact (hchunk j hij hin).2
      · exact hfirst j hout hjk

theorem LoadsValidated.chunk {loads events : List UserEvent}
    (hloads : ∀ event ∈ loads, ∃ j < n, event = .load (addr + j))
    (hevents : LoadsValidated events) :
    LoadsValidated (.validate addr n 0 :: (loads ++ events)) := by
  intro before a after heq
  cases before with
  | nil => cases (List.cons.inj heq).1
  | cons first before =>
      obtain ⟨rfl, htail⟩ := List.cons.inj heq
      rcases List.append_eq_append_iff.mp htail with ⟨middle, hbefore, hrest⟩ |
          ⟨middle, hsplit, hrest⟩
      · obtain ⟨ptr, len, hmem, hrange⟩ := hevents middle a after hrest
        refine ⟨ptr, len, List.mem_cons_of_mem _ ?_, hrange⟩
        rw [hbefore]
        exact List.mem_append_right _ hmem
      · cases middle with
        | nil =>
            obtain ⟨ptr, len, hmem, -⟩ := hevents [] a after hrest.symm
            cases hmem
        | cons second middle =>
            obtain ⟨rfl, -⟩ := List.cons.inj hrest
            obtain ⟨j, hj, hload⟩ := hloads (.load a) (by rw [hsplit]; simp)
            obtain rfl := UserEvent.load.inj hload
            exact ⟨addr, n, List.mem_cons_self, Nat.le_add_right _ _, Nat.add_lt_add_left hj _⟩

/-- What the loop answers from index `i` on, whatever it finds. -/
theorem validateStringFrom_spec (hi : i ≤ maxLen) (hstr : str ≠ 0) (hwrap : str + i < 2 ^ 64) :
    ∃ res events, validateStringFrom root str maxLen i s = .ok (res, s, events) ∧
      StringAnswer s root str maxLen i res ∧ LoadsValidated events := by
  induction hleft : maxLen - i using Nat.strongRecOn generalizing i with
  | _ left ih =>
      subst hleft
      rw [validateStringFrom]
      by_cases hlt : i < maxLen
      · have hleft := Nat.sub_pos_of_lt hlt
        have hpos := chunkSize_pos (str + i) hleft
        have hle := chunkSize_le (str + i) (maxLen - i)
        rw [dif_pos hlt]
        dsimp only
        rw [Nat.mod_eq_of_lt hwrap, validate_chunk (by omega) hleft]
        dsimp only
        by_cases hread : Readable s root (str + i)
        · rw [if_pos hread, if_neg (by decide)]
          set n := chunkSize (str + i) (maxLen - i) with hn
          have hreadable : ∀ j < n, Readable s root (str + i + j) := fun j hj =>
            (readable_congr (chunk_page hj)).mpr hread
          obtain ⟨found, loads, hrun, hloads, hfound, hnone⟩ := findZero_readable hreadable
          rw [hrun]
          cases found with
          | true =>
              obtain ⟨k, hk, hzero, hfirst⟩ := hfound rfl
              refine ⟨0, _, rfl, ?_, ?_⟩
              · refine .ends (k := i + k) (Nat.le_add_right i k) (by omega) ?_
                  (Nat.add_assoc str i k ▸ hzero) ?_
                · intro j hij hjk
                  obtain ⟨d, rfl⟩ := Nat.exists_eq_add_of_le hij
                  rw [← Nat.add_assoc]
                  exact hreadable d (by omega)
                · intro j hij hjk
                  obtain ⟨d, rfl⟩ := Nat.exists_eq_add_of_le hij
                  rw [← Nat.add_assoc]
                  exact hfirst d (by omega)
              · have hnil : LoadsValidated [] := fun before a after h => by
                  cases before <;> cases h
                have hchunk := LoadsValidated.chunk hloads hnil
                rwa [List.append_nil] at hchunk
          | false =>
              have hlast := (hreadable (n - 1) (by omega)).1
              simp only [userLimit] at hlast
              obtain ⟨res, events, hrest, hanswer, hvalid⟩ := ih (maxLen - (i + n)) (by omega)
                (i := i + n) (by omega) (by omega) rfl
              refine ⟨res, _, ?_, hanswer.before fun j hj => ?_, hvalid.chunk hloads⟩
              · dsimp only
                rw [if_neg Bool.false_ne_true, hrest]
              · rw [← Nat.add_assoc]
                exact ⟨hreadable j hj, hnone rfl j hj⟩
        · rw [if_neg hread, if_pos (by decide)]
          refine ⟨eFault, _, rfl, .faults (Nat.le_refl i) hlt hread fun j hij hji => ?_, ?_⟩
          · exact absurd hji (Nat.not_lt.mpr hij)
          · intro before a after h
            cases before with
            | nil => cases (List.cons.inj h).1
            | cons first before => cases before <;> cases (List.cons.inj h).2
      · rw [dif_neg hlt]
        refine ⟨eNametoolong, [], rfl, .tooLong fun j hij hj => ?_, fun before a after h => ?_⟩
        · exact absurd (Nat.lt_of_le_of_lt hij hj) hlt
        · cases before <;> cases h

/-- What `validate_user_string` promises about its answer and about what it did. -/
structure StringValidated (s : PhysMem) (root str maxLen : Nat) (res : Int)
    (events : List UserEvent) : Prop where
  /-- The string ends, in bytes that are all readable. -/
  ends : res = 0 ↔
    ∃ k < maxLen, FirstZero s root str k ∧ ∀ j ≤ k, Readable s root (str + j)
  /-- All the bytes are readable, and none of them is zero. -/
  tooLong : res = eNametoolong ↔
    ∀ j < maxLen, Readable s root (str + j) ∧ virtByte s root (str + j) ≠ some 0
  results : res = 0 ∨ res = eNametoolong ∨ res = eFault
  loads : LoadsValidated events

theorem StringAnswer.ends_iff {res : Int} (h : StringAnswer s root str maxLen 0 res) :
    res = 0 ↔ ∃ k < maxLen, FirstZero s root str k ∧ ∀ j ≤ k, Readable s root (str + j) := by
  cases h with
  | ends hlo hk hreadable hzero hfirst =>
      refine iff_of_true rfl ⟨_, hk, ⟨hzero, fun j hj => hfirst j (Nat.zero_le j) hj⟩, ?_⟩
      exact fun j hj => hreadable j (Nat.zero_le j) hj
  | tooLong hbytes =>
      refine iff_of_false (by decide) ?_
      rintro ⟨k, hk, ⟨hzero, -⟩, -⟩
      exact (hbytes k (Nat.zero_le k) hk).2 hzero
  | @faults k hlo hk hfault hfirst =>
      refine iff_of_false (by decide) ?_
      rintro ⟨k', hk', ⟨hzero, -⟩, hreadable⟩
      rcases Nat.lt_or_ge k' k with hlt | hge
      · exact hfirst k' (Nat.zero_le k') hlt hzero
      · exact hfault (hreadable k hge)

theorem StringAnswer.tooLong_iff {res : Int} (h : StringAnswer s root str maxLen 0 res) :
    res = eNametoolong ↔
      ∀ j < maxLen, Readable s root (str + j) ∧ virtByte s root (str + j) ≠ some 0 := by
  cases h with
  | @ends k hlo hk hreadable hzero hfirst =>
      exact iff_of_false (by decide) fun h => (h k hk).2 hzero
  | tooLong hbytes => exact iff_of_true rfl fun j hj => hbytes j (Nat.zero_le j) hj
  | @faults k hlo hk hfault hfirst =>
      exact iff_of_false (by decide) fun h => hfault (h k hk).1

/-- `validate_user_string` always returns, with memory as it was, and answers exactly
for the bytes up to the first zero; it reads no byte of a page it has not validated. -/
theorem validateUserString_exact (s : PhysMem) (root str maxLen : Nat) (hstr : str ≠ 0)
    (hwrap : str < 2 ^ 64) :
    ∃ res events, validateUserString s root str maxLen = .ok (res, s, events) ∧
      StringValidated s root str maxLen res events := by
  obtain ⟨res, events, hrun, hanswer, hvalid⟩ :=
    validateStringFrom_spec (Nat.zero_le maxLen) hstr hwrap
  refine ⟨res, events, ?_, hanswer.ends_iff, hanswer.tooLong_iff, ?_, hvalid⟩
  · rw [validateUserString, if_neg hstr, hrun]
  · cases hanswer with
    | ends => exact .inl rfl
    | tooLong => exact .inr (.inl rfl)
    | faults => exact .inr (.inr rfl)

/-- All pages but the first are one frame, whose last two bytes are letters. -/
def lettersMemory : PhysMem :=
  { holedMemory (getPageEntry 0) with
    mem := fun f i => if f = 0 ∧ i = 511 then 0x4241000000000000#64
      else holedTable (getPageEntry 0) f i }

/-- Two letters at the end of a page, and the zero at the begin of the next one. -/
theorem validateUserString_exact_twoPages :
    0x1FFE ≠ 0 ∧ ∃ events,
      validateUserString lettersMemory 7 0x1FFE 0x10000 = .ok (0, lettersMemory, events) ∧
        StringValidated lettersMemory 7 0x1FFE 0x10000 0 events := by
  obtain ⟨res, events, hrun, hvalid⟩ :=
    validateUserString_exact lettersMemory 7 0x1FFE 0x10000 (by decide) (by decide)
  obtain rfl : res = 0 := hvalid.ends.mpr ⟨2, by decide, by unfold FirstZero; decide,
    by decide⟩
  exact ⟨by decide, events, hrun, hvalid⟩

end GlitchedOS
