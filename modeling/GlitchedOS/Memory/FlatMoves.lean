/-
`memcpy`, `memmove` and `memset` on flat memory.  They move eight bytes at a time
between a start and an end that go byte by byte.  What is left to move is the same
before and after each round, whatever the alignment and the overlap.
-/
import GlitchedOS.Paging.Bytes

namespace GlitchedOS

/-- A byte at each address; a pointer is below `2 ^ 64`. -/
abbrev FlatMem : Type := Nat → Byte

namespace FlatMem

variable {m : FlatMem} {p k n a : Nat} {w : Word}

def store (m : FlatMem) (p : Nat) (b : Byte) : FlatMem := fun a => if a = p then b else m a

/-- A pointer `k` further on. -/
def forward (p k : Nat) : Nat := (p + k) % 2 ^ 64

/-- A load of eight bytes, least significant first. -/
def loadWord (m : FlatMem) (p : Nat) : Word :=
  (List.range 8).foldl (fun w k => setByte w k (m (forward p k))) 0#64

def storeWord (m : FlatMem) (p : Nat) (w : Word) : FlatMem :=
  (List.range 8).foldl (fun m k => m.store (forward p k) (getByte w k)) m

theorem forward_eq (h : p + k < 2 ^ 64) : forward p k = p + k := Nat.mod_eq_of_lt h

theorem getByte_loadWord (hk : k < 8) : getByte (m.loadWord p) k = m (forward p k) := by
  have hstart : ∀ n ≤ 8, ∀ k < n, getByte ((List.range n).foldl
      (fun w k => setByte w k (m (forward p k))) 0#64) k = m (forward p k) := by
    intro n
    induction n with
    | zero => exact fun _ k hk => absurd hk (Nat.not_lt_zero k)
    | succ n ih =>
        intro hn k hk
        rw [List.range_succ, List.foldl_append, List.foldl_cons, List.foldl_nil,
          getByte_setByte _ (by omega) (by omega)]
        split
        · rename_i heq
          rw [heq]
        · exact ih (by omega) k (by omega)
  exact hstart 8 (Nat.le_refl 8) k hk

theorem storeWord_apply (h : p + 8 ≤ 2 ^ 64) :
    m.storeWord p w a = if p ≤ a ∧ a < p + 8 then getByte w (a - p) else m a := by
  have hstart : ∀ n ≤ 8, (List.range n).foldl
      (fun m k => store m (forward p k) (getByte w k)) m a =
        if p ≤ a ∧ a < p + n then getByte w (a - p) else m a := by
    intro n
    induction n with
    | zero => exact fun _ => (if_neg (by omega)).symm
    | succ n ih =>
        intro hn
        rw [List.range_succ, List.foldl_append, List.foldl_cons, List.foldl_nil, store,
          forward_eq (by omega), ih (by omega)]
        by_cases heq : a = p + n
        · rw [if_pos heq, if_pos (by omega), heq, Nat.add_sub_cancel_left]
        · rw [if_neg heq]
          exact if_congr (by omega) rfl rfl
  exact hstart 8 (Nat.le_refl 8)

def patch (m : FlatMem) (p n : Nat) (byte : Nat → Byte) : FlatMem := fun a =>
  if p ≤ a ∧ a < p + n then byte (a - p) else m a

theorem patch_zero (m : FlatMem) (p : Nat) (byte : Nat → Byte) : m.patch p 0 byte = m := by
  funext a
  exact if_neg (by omega)

theorem patch_congr {byte byte' : Nat → Byte} (h : ∀ i < n, byte i = byte' i) :
    m.patch p n byte = m.patch p n byte' := by
  funext a
  rw [patch, patch]
  split
  · exact h _ (by omega)
  · rfl

theorem patch_split (m : FlatMem) (p : Nat) (byte : Nat → Byte) (hk : k ≤ n) :
    ((m.patch p k byte).patch (p + k) (n - k) fun i => byte (k + i)) = m.patch p n byte := by
  funext a
  simp only [patch]
  by_cases hsecond : p + k ≤ a ∧ a < p + k + (n - k)
  · rw [if_pos hsecond, if_pos (by omega)]
    congr 1
    omega
  · rw [if_neg hsecond]
    by_cases hfirst : p ≤ a ∧ a < p + k
    · rw [if_pos hfirst, if_pos (by omega)]
    · rw [if_neg hfirst, if_neg (by omega)]

end FlatMem

open FlatMem

/-- The variables of `memcpy`. -/
structure CopyState where
  mem : FlatMem
  dest : Nat
  src : Nat
  size : Nat

namespace CopyState

/-- `*d++ = *s++; n--` -/
def copyByte (st : CopyState) : CopyState :=
  ⟨st.mem.store st.dest (st.mem st.src), forward st.dest 1, forward st.src 1, st.size - 1⟩

def copyWord (st : CopyState) : CopyState :=
  ⟨st.mem.storeWord st.dest (st.mem.loadWord st.src), forward st.dest 8, forward st.src 8,
    st.size - 8⟩

/-- The bytes up to an aligned destination. -/
def copyHead (st : CopyState) : CopyState :=
  if st.size ≠ 0 ∧ st.dest &&& 7 ≠ 0 then copyHead st.copyByte else st
termination_by st.size
decreasing_by
  rename_i h
  exact Nat.sub_one_lt h.1

def copyWords (st : CopyState) : CopyState :=
  if 8 ≤ st.size then copyWords st.copyWord else st
termination_by st.size
decreasing_by
  rename_i h
  exact Nat.sub_lt_self (by decide) h

def copyTail (st : CopyState) : CopyState :=
  if st.size ≠ 0 then copyTail st.copyByte else st
termination_by st.size
decreasing_by
  rename_i h
  exact Nat.sub_one_lt h

end CopyState

/-- `memcpy` -/
def memcpy (m : FlatMem) (dest src n : Nat) : FlatMem :=
  (CopyState.copyHead ⟨m, dest, src, n⟩).copyWords.copyTail.mem

namespace CopyState

variable {st : CopyState} {k : Nat}

/-- The ranges do not wrap, and no byte is overwritten before it is read. -/
structure Forward (st : CopyState) : Prop where
  dest : st.dest + st.size ≤ 2 ^ 64
  src : st.src + st.size ≤ 2 ^ 64
  apart : st.dest ≤ st.src ∨ st.src + st.size ≤ st.dest

/-- The memory when the rest is copied. -/
def goal (st : CopyState) : FlatMem :=
  st.mem.patch st.dest st.size fun i => st.mem (st.src + i)

/-- The state when `k` bytes, read before any is written, are copied. -/
def moved (st : CopyState) (k : Nat) : CopyState :=
  ⟨st.mem.patch st.dest k fun i => st.mem (st.src + i), forward st.dest k, forward st.src k,
    st.size - k⟩

theorem Forward.moved (h : st.Forward) (hk : k ≤ st.size) : (st.moved k).Forward := by
  obtain ⟨hdest, hsrc, hapart⟩ := h
  refine ⟨?_, ?_, ?_⟩ <;> simp only [CopyState.moved, forward] <;> omega

theorem Forward.goal_moved (h : st.Forward) (hk : k ≤ st.size) :
    (st.moved k).goal = st.goal := by
  obtain ⟨hdest, hsrc, hapart⟩ := h
  rcases Nat.eq_or_lt_of_le hk with rfl | hlt
  · rw [goal, CopyState.moved, Nat.sub_self, patch_zero]
    rfl
  rw [goal, goal, CopyState.moved, ← patch_split _ _ _ hk]
  dsimp only
  rw [forward_eq (by omega), forward_eq (by omega)]
  refine patch_congr fun i hi => ?_
  rw [patch, if_neg (by omega), Nat.add_assoc]

theorem copyByte_eq (st : CopyState) : st.copyByte = st.moved 1 := by
  rw [copyByte, moved]
  congr 1
  funext a
  rw [store, patch]
  by_cases heq : a = st.dest
  · rw [if_pos heq, if_pos (by omega), heq, Nat.sub_self, Nat.add_zero]
  · rw [if_neg heq, if_neg (by omega)]

theorem Forward.copyWord_eq (h : st.Forward) (hsize : 8 ≤ st.size) :
    st.copyWord = st.moved 8 := by
  have hdest := h.dest
  have hsrc := h.src
  rw [copyWord, CopyState.moved]
  congr 1
  funext a
  rw [storeWord_apply (by omega), patch]
  split
  · rename_i hin
    rw [getByte_loadWord (by omega), forward_eq (by omega)]
  · rfl

theorem Forward.copyHead (h : st.Forward) :
    st.copyHead.Forward ∧ st.copyHead.goal = st.goal := by
  fun_induction CopyState.copyHead st with
  | case1 st hmore ih =>
      have hk : 1 ≤ st.size := Nat.one_le_iff_ne_zero.mpr hmore.1
      rw [copyByte_eq] at ih ⊢
      obtain ⟨hforward, hgoal⟩ := ih (h.moved hk)
      exact ⟨hforward, hgoal.trans (h.goal_moved hk)⟩
  | case2 st => exact ⟨h, rfl⟩

theorem Forward.copyWords (h : st.Forward) :
    st.copyWords.Forward ∧ st.copyWords.goal = st.goal := by
  fun_induction CopyState.copyWords st with
  | case1 st hmore ih =>
      rw [h.copyWord_eq hmore] at ih ⊢
      obtain ⟨hforward, hgoal⟩ := ih (h.moved hmore)
      exact ⟨hforward, hgoal.trans (h.goal_moved hmore)⟩
  | case2 st => exact ⟨h, rfl⟩

theorem Forward.copyTail (h : st.Forward) : st.copyTail.mem = st.goal := by
  fun_induction CopyState.copyTail st with
  | case1 st hmore ih =>
      have hk : 1 ≤ st.size := Nat.one_le_iff_ne_zero.mpr hmore
      rw [copyByte_eq] at ih ⊢
      rw [ih (h.moved hk), h.goal_moved hk]
  | case2 st hdone =>
      rw [goal, not_not.mp hdone, patch_zero]

end CopyState

/-- `memcpy` is exact when its destination does not start in the middle of its source. -/
theorem memcpy_eq {m : FlatMem} {dest src n : Nat}
    (h : CopyState.Forward ⟨m, dest, src, n⟩) :
    memcpy m dest src n = m.patch dest n fun i => m (src + i) := by
  obtain ⟨hhead, hgoal⟩ := h.copyHead
  obtain ⟨hwords, hgoal'⟩ := hhead.copyWords
  rw [memcpy, hwords.copyTail, hgoal', hgoal]
  rfl

/-- The loop of `memmove` from the last byte to the first. -/
def moveBack (dest src : Nat) : Nat → FlatMem → FlatMem
  | 0, m => m
  | i + 1, m => moveBack dest src i (m.store (forward dest i) (m (forward src i)))

/-- `memmove` -/
def memmove (m : FlatMem) (dest src n : Nat) : FlatMem :=
  if dest < src ∨ forward src n ≤ dest then memcpy m dest src n
  else moveBack dest src n m

/-- Behind its source a destination may be written to from its end. -/
theorem moveBack_eq {dest src : Nat} (hle : src ≤ dest) {n : Nat} (m : FlatMem)
    (hdest : dest + n ≤ 2 ^ 64) :
    moveBack dest src n m = m.patch dest n fun i => m (src + i) := by
  induction n generalizing m with
  | zero => rw [moveBack, patch_zero]
  | succ n ih =>
      rw [moveBack, ih _ (by omega), forward_eq (by omega), forward_eq (by omega)]
      funext a
      simp only [patch, store]
      by_cases hlast : a = dest + n
      · subst hlast
        rw [if_neg (by omega), if_pos rfl, if_pos (by omega), Nat.add_sub_cancel_left]
      · rw [if_neg hlast]
        by_cases hin : dest ≤ a ∧ a < dest + n
        · rw [if_pos hin, if_neg (by omega), if_pos (by omega)]
        · rw [if_neg hin, if_neg (by omega)]

/-- One of the two directions is right for any two ranges. -/
theorem memmove_eq (m : FlatMem) {dest src n : Nat} (hdest : dest + n ≤ 2 ^ 64)
    (hsrc : src + n ≤ 2 ^ 64) :
    memmove m dest src n = m.patch dest n fun i => m (src + i) := by
  rw [memmove]
  split
  · rename_i hforward
    refine memcpy_eq ⟨hdest, hsrc, ?_⟩
    rcases hforward with hlt | hbehind
    · exact Or.inl (Nat.le_of_lt hlt)
    · -- a source up to the last address ends at the pointer `0`
      rcases Nat.eq_or_lt_of_le hsrc with hend | hlt
      · exact Or.inl (by dsimp only; omega)
      · rw [forward_eq hlt] at hbehind
        exact Or.inr hbehind
  · rename_i hback
    exact moveBack_eq (by omega) m hdest

/-- The variables of `memset`. -/
structure FillState where
  mem : FlatMem
  ptr : Nat
  size : Nat

/-- `word`, after so many rounds of its loop. -/
def fillWord (c : Byte) : Nat → Word
  | 0 => 0#64
  | i + 1 => fillWord c i <<< 8 ||| c.setWidth 64

namespace FillState

/-- `*p++ = c; n--` -/
def fillByte (c : Byte) (st : FillState) : FillState :=
  ⟨st.mem.store st.ptr c, forward st.ptr 1, st.size - 1⟩

/-- `*w++ = word; n -= 8` -/
def fillEight (c : Byte) (st : FillState) : FillState :=
  ⟨st.mem.storeWord st.ptr (fillWord c 8), forward st.ptr 8, st.size - 8⟩

/-- The loop in front; what it tests is `sizeof((uintptr_t) - 1)`, which is 8. -/
def fillHead (c : Byte) (st : FillState) : FillState :=
  if st.size ≠ 0 ∧ st.ptr &&& 8 ≠ 0 then fillHead c (st.fillByte c) else st
termination_by st.size
decreasing_by
  rename_i h
  exact Nat.sub_one_lt h.1

def fillWords (c : Byte) (st : FillState) : FillState :=
  if 8 ≤ st.size then fillWords c (st.fillEight c) else st
termination_by st.size
decreasing_by
  rename_i h
  exact Nat.sub_lt_self (by decide) h

def fillTail (c : Byte) (st : FillState) : FillState :=
  if st.size ≠ 0 then fillTail c (st.fillByte c) else st
termination_by st.size
decreasing_by
  rename_i h
  exact Nat.sub_one_lt h

end FillState

/-- `memset`; `value` is an `int`. -/
def memset (m : FlatMem) (ptr : Nat) (value : Int) (n : Nat) : FlatMem :=
  let c := BitVec.ofInt 8 value
  (((FillState.mk m ptr n).fillHead c).fillWords c |>.fillTail c).mem

theorem getByte_shift (w : Word) (c : Byte) {k : Nat} (hk : k < 8) :
    getByte (w <<< 8 ||| c.setWidth 64) k = if k = 0 then c else getByte w (k - 1) := by
  apply BitVec.eq_of_getLsbD_eq
  intro i hi
  rw [getByte, BitVec.getLsbD_extractLsb', BitVec.getLsbD_or, BitVec.getLsbD_shiftLeft,
    BitVec.getLsbD_setWidth]
  split
  · rename_i hzero
    subst hzero
    simp [hi, Nat.lt_trans hi (by decide : 8 < 64)]
  · rename_i hpos
    have hout : c.getLsbD (8 * k + i) = false := BitVec.getLsbD_of_ge _ _ (by omega)
    have hsub : 8 * k + i - 8 = 8 * (k - 1) + i := by omega
    rw [getByte, BitVec.getLsbD_extractLsb', hout, hsub]
    simp [hi, show ¬ 8 * k + i < 8 by omega, show 8 * k + i < 64 by omega]

theorem getByte_fillWord (c : Byte) {n k : Nat} (hn : n ≤ 8) (hk : k < n) :
    getByte (fillWord c n) k = c := by
  induction n generalizing k with
  | zero => exact absurd hk (Nat.not_lt_zero k)
  | succ n ih =>
      rw [fillWord, getByte_shift _ _ (by omega)]
      split
      · rfl
      · exact ih (by omega) (by omega)

namespace FillState

variable {c : Byte} {st : FillState} {k : Nat}

/-- The memory when the rest is filled. -/
def goal (c : Byte) (st : FillState) : FlatMem := st.mem.patch st.ptr st.size fun _ => c

/-- The state when `k` bytes are filled. -/
def filled (c : Byte) (st : FillState) (k : Nat) : FillState :=
  ⟨st.mem.patch st.ptr k fun _ => c, forward st.ptr k, st.size - k⟩

/-- The range to fill does not wrap. -/
def Fits (st : FillState) : Prop := st.ptr + st.size ≤ 2 ^ 64

theorem Fits.filled (h : st.Fits) (hk : k ≤ st.size) : (st.filled c k).Fits := by
  simp only [Fits, FillState.filled, forward] at h ⊢
  omega

theorem Fits.goal_filled (h : st.Fits) (hk : k ≤ st.size) :
    (st.filled c k).goal c = st.goal c := by
  rw [Fits] at h
  rcases Nat.eq_or_lt_of_le hk with rfl | hlt
  · rw [goal, FillState.filled, Nat.sub_self, patch_zero]
    rfl
  rw [goal, goal, FillState.filled, ← patch_split _ _ _ hk, forward_eq (by omega)]

theorem fillByte_eq (c : Byte) (st : FillState) : st.fillByte c = st.filled c 1 := by
  rw [fillByte, filled]
  congr 1
  funext a
  rw [store, patch]
  exact if_congr (by omega) rfl rfl

theorem Fits.fillEight_eq (h : st.Fits) (hsize : 8 ≤ st.size) :
    st.fillEight c = st.filled c 8 := by
  rw [Fits] at h
  rw [fillEight, FillState.filled]
  congr 1
  funext a
  rw [storeWord_apply (by omega), patch]
  split
  · rw [getByte_fillWord c (Nat.le_refl 8) (by omega)]
  · rfl

theorem Fits.fillHead (h : st.Fits) :
    (st.fillHead c).Fits ∧ (st.fillHead c).goal c = st.goal c := by
  fun_induction FillState.fillHead c st with
  | case1 st hmore ih =>
      have hk : 1 ≤ st.size := Nat.one_le_iff_ne_zero.mpr hmore.1
      rw [fillByte_eq] at ih ⊢
      obtain ⟨hfits, hgoal⟩ := ih (h.filled hk)
      exact ⟨hfits, hgoal.trans (h.goal_filled hk)⟩
  | case2 st => exact ⟨h, rfl⟩

theorem Fits.fillWords (h : st.Fits) :
    (st.fillWords c).Fits ∧ (st.fillWords c).goal c = st.goal c := by
  fun_induction FillState.fillWords c st with
  | case1 st hmore ih =>
      rw [h.fillEight_eq hmore] at ih ⊢
      obtain ⟨hfits, hgoal⟩ := ih (h.filled hmore)
      exact ⟨hfits, hgoal.trans (h.goal_filled hmore)⟩
  | case2 st => exact ⟨h, rfl⟩

theorem Fits.fillTail (h : st.Fits) : (st.fillTail c).mem = st.goal c := by
  fun_induction FillState.fillTail c st with
  | case1 st hmore ih =>
      have hk : 1 ≤ st.size := Nat.one_le_iff_ne_zero.mpr hmore
      rw [fillByte_eq] at ih ⊢
      rw [ih (h.filled hk), h.goal_filled hk]
  | case2 st hdone =>
      rw [goal, not_not.mp hdone, patch_zero]

end FillState

theorem memset_eq (m : FlatMem) {ptr n : Nat} (value : Int) (h : ptr + n ≤ 2 ^ 64) :
    memset m ptr value n = m.patch ptr n fun _ => BitVec.ofInt 8 value := by
  have hfits : (FillState.mk m ptr n).Fits := h
  obtain ⟨hhead, hgoal⟩ := hfits.fillHead (c := BitVec.ofInt 8 value)
  obtain ⟨hwords, hgoal'⟩ := hhead.fillWords (c := BitVec.ofInt 8 value)
  rw [memset, hwords.fillTail, hgoal', hgoal]
  rfl

/-- `memmove` leaves in its destination what was in its source, for every overlap,
`memset` the lowest byte of its value, and neither changes a byte elsewhere. -/
theorem memmove_memset_exact (m : FlatMem) {dest n : Nat} (hdest : dest + n ≤ 2 ^ 64) :
    (∀ src, src + n ≤ 2 ^ 64 →
      (∀ i < n, memmove m dest src n (dest + i) = m (src + i)) ∧
        ∀ a, a < dest ∨ dest + n ≤ a → memmove m dest src n a = m a) ∧
    ∀ value : Int,
      (∀ i < n, memset m dest value n (dest + i) = BitVec.ofInt 8 value) ∧
        ∀ a, a < dest ∨ dest + n ≤ a → memset m dest value n a = m a := by
  have hpatch : ∀ byte : Nat → Byte, (∀ i < n, m.patch dest n byte (dest + i) = byte i) ∧
      ∀ a, a < dest ∨ dest + n ≤ a → m.patch dest n byte a = m a := by
    intro byte
    refine ⟨fun i hi => ?_, fun a ha => if_neg (by omega)⟩
    rw [patch, if_pos (by omega), Nat.add_sub_cancel_left]
  refine ⟨fun src hsrc => ?_, fun value => ?_⟩
  · rw [memmove_eq m hdest hsrc]
    exact hpatch _
  · rw [memset_eq m value hdest]
    exact hpatch _

/-- Twenty bytes at the end of memory, moved by three, and a negative value. -/
theorem memmove_memset_exact_end :
    (∀ i < 20, memmove (BitVec.ofNat 8) (2 ^ 64 - 20) (2 ^ 64 - 23) 20 (2 ^ 64 - 20 + i) =
      BitVec.ofNat 8 (2 ^ 64 - 23 + i)) ∧
    ∀ i < 20, memset (BitVec.ofNat 8) (2 ^ 64 - 20) (-1) 20 (2 ^ 64 - 20 + i) =
      BitVec.ofInt 8 (-1) := by
  have hexact := @memmove_memset_exact (BitVec.ofNat 8) (2 ^ 64 - 20) 20 (by decide)
  exact ⟨(hexact.1 (2 ^ 64 - 23) (by decide)).1, (hexact.2 (-1)).1⟩

end GlitchedOS
