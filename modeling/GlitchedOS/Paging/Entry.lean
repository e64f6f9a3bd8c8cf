/-
Page-table words: the flag bits, the frame a word points to, and how the two
parts behave under the masking the paging code does.  Frames are named by
number; the physical address of frame `f` is `f * PAGE_SIZE`, below `2 ^ 52`.
-/
import Mathlib.Data.BitVec
import GlitchedOS.Lib.RadixForest

namespace GlitchedOS

abbrev Word := BitVec 64

def pageSize : Nat := 4096

def flagsMask : Word := 0xFFF0000000000FFF#64

/-- `PAGE_MASK`, sign-extended to 64 bits. -/
def pageMask : Word := 0xFFFFFFFFFFFFF000#64

def flagsPresent : Word := 0x1#64
def flagsRw : Word := 0x2#64
def flagsUser : Word := 0x4#64
def flagsCow : Word := 0x200#64

/-- `HIGHER_LEVEL_FLAGS` -/
def higherLevelFlags : Word := flagsPresent ||| flagsRw ||| flagsUser

def hasFlag (e flag : Word) : Bool := e &&& flag != 0#64

/-- `page_table_to_address` -/
def pageTableToAddress (e : Word) : Word := e &&& ~~~flagsMask

/-- The number of the frame a word points to. -/
def frameOf (e : Word) : Nat := (pageTableToAddress e).toNat / pageSize

def frameAddress (f : Nat) : Word := BitVec.ofNat 64 (f * pageSize)

/-- The flags a caller asks for: a word without address bits. -/
def Flags := { w : Word // w &&& ~~~flagsMask = 0#64 }

theorem hasFlag_twoPow (e : Word) (k : Nat) (hk : k < 64) :
    hasFlag e (BitVec.twoPow 64 k) = e.getLsbD k := by
  rw [hasFlag, BitVec.and_twoPow]
  cases e.getLsbD k with
  | false => simp
  | true =>
      have hne : BitVec.twoPow 64 k ≠ 0#64 := by
        intro h
        have := congrArg (fun w : Word => w.getLsbD k) h
        simp [hk] at this
      simpa using hne

theorem hasFlag_present (e : Word) : hasFlag e flagsPresent = e.getLsbD 0 :=
  hasFlag_twoPow e 0 (by decide)

theorem hasFlag_rw (e : Word) : hasFlag e flagsRw = e.getLsbD 1 :=
  hasFlag_twoPow e 1 (by decide)

theorem hasFlag_user (e : Word) : hasFlag e flagsUser = e.getLsbD 2 :=
  hasFlag_twoPow e 2 (by decide)

theorem hasFlag_cow (e : Word) : hasFlag e flagsCow = e.getLsbD 9 :=
  hasFlag_twoPow e 9 (by decide)

theorem getLsbD_flagsMask (i : Nat) :
    flagsMask.getLsbD i = decide (i < 12 ∨ (52 ≤ i ∧ i < 64)) := by
  by_cases hi : i < 64
  · have hall : ∀ j : Fin 64, flagsMask.getLsbD j.1 =
        decide (j.1 < 12 ∨ (52 ≤ j.1 ∧ j.1 < 64)) := by decide
    exact hall ⟨i, hi⟩
  · rw [BitVec.getLsbD_of_ge _ _ (by omega)]
    symm
    rw [decide_eq_false_iff_not]
    omega

theorem getLsbD_frameAddress {f : Nat} (hf : f < 2 ^ 40) (i : Nat) :
    (frameAddress f).getLsbD i =
      (decide (12 ≤ i) && f.testBit (i - 12)) := by
  have hmul : f * pageSize = f <<< 12 := by
    rw [Nat.shiftLeft_eq]
    rfl
  rw [frameAddress, BitVec.getLsbD_ofNat, hmul, Nat.testBit_shiftLeft]
  by_cases hi : i < 64
  · simp [hi]
  · have : f.testBit (i - 12) = false := by
      apply Nat.testBit_lt_two_pow
      exact Nat.lt_of_lt_of_le hf (Nat.pow_le_pow_right (by omega) (by omega))
    simp [this]

theorem frameAddress_toNat {f : Nat} (hf : f < 2 ^ 40) :
    (frameAddress f).toNat = f * pageSize := by
  rw [frameAddress, BitVec.toNat_ofNat]
  apply Nat.mod_eq_of_lt
  simp only [pageSize]
  omega

/-- A frame address joined with flag bits gives the frame back. -/
theorem frameOf_join {f : Nat} (hf : f < 2 ^ 40) {flags : Word}
    (hflags : flags &&& ~~~flagsMask = 0#64) :
    frameOf (frameAddress f ||| flags) = f := by
  have haddr : frameAddress f &&& ~~~flagsMask = frameAddress f := by
    apply BitVec.eq_of_getLsbD_eq
    intro i hi
    rw [BitVec.getLsbD_and, BitVec.getLsbD_not, getLsbD_flagsMask,
      getLsbD_frameAddress hf]
    by_cases hlow : 12 ≤ i
    · by_cases hhigh : i < 52
      · simp [hi]
        omega
      · have : f.testBit (i - 12) = false := by
          apply Nat.testBit_lt_two_pow
          exact Nat.lt_of_lt_of_le hf
            (Nat.pow_le_pow_right (by omega) (by omega))
        simp [this]
    · simp [hlow]
  rw [frameOf, pageTableToAddress, BitVec.and_or_distrib_right, hflags,
    haddr, BitVec.or_zero, frameAddress_toNat hf]
  exact Nat.mul_div_cancel f (by decide)

theorem frameOf_lt (e : Word) : frameOf e < 2 ^ 40 := by
  have hle : (pageTableToAddress e).toNat ≤ (~~~flagsMask).toNat := by
    rw [pageTableToAddress, BitVec.toNat_and]
    exact Nat.and_le_right
  have hmask : (~~~flagsMask).toNat = 0x000FFFFFFFFFF000 := by decide
  rw [frameOf, pageSize]
  omega

theorem frameAddress_pageMask {f : Nat} (hf : f < 2 ^ 40) :
    frameAddress f &&& pageMask = frameAddress f := by
  apply BitVec.eq_of_getLsbD_eq
  intro i hi
  have hall : ∀ j : Fin 64, pageMask.getLsbD j.1 = decide (12 ≤ j.1) := by
    decide
  rw [BitVec.getLsbD_and, hall ⟨i, hi⟩, getLsbD_frameAddress hf]
  cases decide (12 ≤ i) <;> simp

theorem address_or_flags (e : Word) :
    pageTableToAddress e ||| (e &&& flagsMask) = e := by
  have hall : ~~~flagsMask ||| flagsMask = BitVec.allOnes 64 := by decide
  rw [pageTableToAddress, ← BitVec.and_or_distrib_left, hall,
    BitVec.and_allOnes]

theorem frameOf_congr {e e' : Word}
    (h : e &&& ~~~flagsMask = e' &&& ~~~flagsMask) : frameOf e = frameOf e' := by
  rw [frameOf, frameOf, pageTableToAddress, pageTableToAddress, h]

/-- The low flag bits of a joined word are those of its flag part. -/
theorem getLsbD_join {f : Nat} (hf : f < 2 ^ 40) (flags : Word) {k : Nat}
    (hk : k < 12) :
    (frameAddress f ||| flags).getLsbD k = flags.getLsbD k := by
  rw [BitVec.getLsbD_or, getLsbD_frameAddress hf]
  have : ¬ 12 ≤ k := by omega
  simp [this]

theorem flagBits_or {a b : Word} (ha : a &&& ~~~flagsMask = 0#64)
    (hb : b &&& ~~~flagsMask = 0#64) : (a ||| b) &&& ~~~flagsMask = 0#64 := by
  rw [BitVec.and_or_distrib_right, ha, hb, BitVec.or_zero]

theorem flagBits_and {a : Word} (ha : a &&& ~~~flagsMask = 0#64) (b : Word) :
    (a &&& b) &&& ~~~flagsMask = 0#64 := by
  rw [BitVec.and_assoc, BitVec.and_comm b, ← BitVec.and_assoc, ha,
    BitVec.zero_and]

end GlitchedOS
