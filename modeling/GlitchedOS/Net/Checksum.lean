/-
Checksums over bytes.  The loops that fold a sum to 16 bits compute the one's-complement
sum of the words that the bytes make, the last one filled up with zero.
-/
import GlitchedOS.Lib.OnesComplement
import GlitchedOS.Net.Socket
import Mathlib.Algebra.BigOperators.Group.Finset.Basic

namespace GlitchedOS

/-- The 16-bit words of bytes in network order, padded with a zero byte. -/
def byteWords : List UInt8 → List Nat
  | [] => []
  | [a] => [a.toNat * 256]
  | a :: b :: rest => (a.toNat * 256 + b.toNat) :: byteWords rest

/-- The checksum of bytes: the complement of the one's-complement sum of their words. -/
def wordChecksum (bytes : List UInt8) : Nat := 65535 - onesSum 65535 (byteWords bytes)

/-- The memory where a packet lies, with the heap behind it. -/
def placed (bytes : List UInt8) (heap : Nat → UInt8) : Nat → UInt8 := fun a =>
  if a < bytes.length then bytes.getD a 0 else heap a

theorem foldCarry_small {sum : Nat} (n : Nat) (h : sum < 2 ^ 16) :
    foldCarry (n + 1) sum = endAround 65535 sum := by
  rw [foldCarry, if_pos (Nat.div_eq_of_lt h), endAround_of_le (by omega)]

theorem foldCarry_round {n sum : Nat}
    (h : foldCarry n (sum % 2 ^ 16 + sum / 2 ^ 16) =
      endAround 65535 (sum % 2 ^ 16 + sum / 2 ^ 16)) :
    foldCarry (n + 1) sum = endAround 65535 sum := by
  rw [foldCarry]
  split
  · rename_i hzero
    rw [endAround_of_le (by omega)]
  · rw [h]
    exact endAround_carry 65535 sum

/-- A 32-bit sum is folded after three rounds. -/
theorem foldCarry_eq {sum : Nat} (h : sum < 2 ^ 32) : foldCarry 4 sum = endAround 65535 sum := by
  refine foldCarry_round (foldCarry_round ?_)
  apply foldCarry_small
  omega

theorem byteWords_le {bytes : List UInt8} : ∀ w ∈ byteWords bytes, w ≤ 65535 := by
  have hbyte : ∀ b : UInt8, b.toNat < 256 := UInt8.toNat_lt
  induction bytes using byteWords.induct with
  | case1 => intro w hw; cases hw
  | case2 a =>
      intro w hw
      rw [List.mem_singleton.mp hw]
      have ha := hbyte a
      omega
  | case3 a b rest ih =>
      intro w hw
      rcases List.mem_cons.mp hw with rfl | hw
      · have ha := hbyte a
        have hb := hbyte b
        omega
      · exact ih w hw

theorem byteWords_sum_le (bytes : List UInt8) :
    (byteWords bytes).sum ≤ 65535 * ((bytes.length + 1) / 2) := by
  have hbyte : ∀ b : UInt8, b.toNat < 256 := UInt8.toNat_lt
  induction bytes using byteWords.induct with
  | case1 => simp [byteWords]
  | case2 a =>
      have ha := hbyte a
      simp only [byteWords, List.sum_cons, List.sum_nil, List.length_cons, List.length_nil]
      omega
  | case3 a b rest ih =>
      have ha := hbyte a
      have hb := hbyte b
      simp only [byteWords, List.sum_cons, List.length_cons]
      omega

theorem byteWords_sum_lt {bytes : List UInt8} (h : bytes.length ≤ 65547) :
    (byteWords bytes).sum < 2 ^ 31 + 2 ^ 20 := by
  have hsum := byteWords_sum_le bytes
  omega

theorem byteWords_append {bytes : List UInt8} (h : bytes.length % 2 = 0) (rest : List UInt8) :
    byteWords (bytes ++ rest) = byteWords bytes ++ byteWords rest := by
  induction bytes using byteWords.induct with
  | case1 => rfl
  | case2 a => cases h
  | case3 a b more ih =>
      rw [List.length_cons, List.length_cons] at h
      rw [List.cons_append, List.cons_append, byteWords, ih (by omega), byteWords]
      rfl

/-- Words read from memory: for an odd length the last one holds the byte behind. -/
theorem memWords_sum (packet : Nat → UInt8) (len : Nat) :
    ((List.range ((len + 1) / 2)).map fun i => memWord packet (2 * i)).sum =
      (byteWords ((List.range len).map packet)).sum +
        if len % 2 = 0 then 0 else (packet len).toNat := by
  induction len using Nat.twoStepInduction generalizing packet with
  | zero => rfl
  | one => simp [byteWords, memWord]
  | more n ih _ =>
      have hbytes : (List.range (n + 2)).map packet =
          packet 0 :: packet 1 :: (List.range n).map fun a => packet (a + 2) := by
        simp [List.range_succ_eq_map, Function.comp_def]
      have hwords : ((List.range ((n + 2 + 1) / 2)).map fun i => memWord packet (2 * i)) =
          memWord packet 0 ::
            (List.range ((n + 1) / 2)).map fun i => memWord (fun a => packet (a + 2)) (2 * i) := by
        rw [show (n + 2 + 1) / 2 = (n + 1) / 2 + 1 by omega, List.range_succ_eq_map]
        simp [memWord, Function.comp_def, Nat.mul_add, Nat.add_right_comm]
      rw [hwords, hbytes, byteWords, List.sum_cons, List.sum_cons, ih, Nat.add_mod_right,
        Nat.add_assoc]
      rfl

theorem wordChecksum_eq (bytes : List UInt8) :
    wordChecksum bytes = 65535 - endAround 65535 (byteWords bytes).sum := by
  rw [wordChecksum, onesSum_eq (by decide) byteWords_le]

/-- What a byte adds to the sum, by its place. -/
def byteWeight (a : Nat) : Nat := if a % 2 = 0 then 256 else 1

theorem byteWords_sum (packet : Nat → UInt8) (len : Nat) :
    (byteWords ((List.range len).map packet)).sum =
      ∑ a ∈ Finset.range len, (packet a).toNat * byteWeight a := by
  induction len using Nat.twoStepInduction generalizing packet with
  | zero => rfl
  | one => simp [byteWords, byteWeight]
  | more n ih _ =>
      have hbytes : (List.range (n + 2)).map packet =
          packet 0 :: packet 1 :: (List.range n).map fun a => packet (a + 2) := by
        simp [List.range_succ_eq_map, Function.comp_def]
      have hweight : ∀ a, byteWeight (a + 1 + 1) = byteWeight a := by
        intro a
        rw [byteWeight, byteWeight, Nat.add_assoc, Nat.add_mod_right]
      rw [hbytes, byteWords, List.sum_cons, ih, Finset.sum_range_succ', Finset.sum_range_succ']
      simp only [hweight]
      change _ + (∑ a ∈ Finset.range n, (packet (a + 2)).toNat * byteWeight a) =
        (∑ a ∈ Finset.range n, (packet (a + 2)).toNat * byteWeight a) +
          (packet 1).toNat * 1 + (packet 0).toNat * 256
      omega

theorem byteWords_update (packet : Nat → UInt8) {len j : Nat} (hj : j < len) :
    ∃ rest, ∀ b, (byteWords ((List.range len).map (Function.update packet j b))).sum =
      rest + b.toNat * byteWeight j := by
  refine ⟨∑ a ∈ (Finset.range len).erase j, (packet a).toNat * byteWeight a, fun b => ?_⟩
  rw [byteWords_sum, ← Finset.sum_erase_add _ _ (Finset.mem_range.mpr hj), Function.update_self]
  congr 1
  refine Finset.sum_congr rfl fun a ha => ?_
  rw [Function.update_of_ne (Finset.ne_of_mem_erase ha)]

end GlitchedOS
