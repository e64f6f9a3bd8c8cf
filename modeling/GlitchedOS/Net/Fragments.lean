/-
The slots of the reassembly.  Fragments of several datagrams arrive interleaved;
the trace beside `ids` says which datagrams are in progress and in which slot the
first fragment of each was stored.
-/
import GlitchedOS.Lib.Run
import GlitchedOS.Net.Ip
import Mathlib.Data.Finset.Card
import Mathlib.Data.Nat.Find

namespace GlitchedOS

def headerLength (frame : List UInt8) : Nat := (frame.getD 0 0).toNat % 16 * 4

def sourceOf (frame : List UInt8) : IpAddr :=
  ⟨frame.getD 12 0, frame.getD 13 0, frame.getD 14 0, frame.getD 15 0⟩

def identificationOf (frame : List UInt8) : Nat := wordAt frame 4

def offsetOf (frame : List UInt8) : Nat := (wordAt frame 6 &&& 0x1FFF) * 8

def lengthOf (frame : List UInt8) : Nat := wordAt frame 2 - headerLength frame

def isLast (frame : List UInt8) : Bool := wordAt frame 6 &&& ipFlagMf = 0

/-- The checks of `ip_received`. -/
def Accepts (ip : IpAddr) (frame : List UInt8) : Prop :=
  let dst : IpAddr :=
    ⟨frame.getD 16 0, frame.getD 17 0, frame.getD 18 0, frame.getD 19 0⟩
  (frame.getD 0 0).toNat / 16 = 4 ∧ 5 ≤ (frame.getD 0 0).toNat % 16 ∧
    (dst = ip ∨ dst = ipBroadcastAddr) ∧
    wordAt frame 10 =
      ipChecksum ((frame.set 10 0).set 11 0) ((frame.getD 0 0).toNat % 16 * 2)

instance decidableAccepts (ip : IpAddr) (frame : List UInt8) :
    Decidable (Accepts ip frame) := by
  unfold Accepts
  infer_instance

/-- A packet that may be a fragment, of a datagram of at most 65535 bytes. -/
structure IsFragment (ip : IpAddr) (frame : List UInt8) : Prop where
  accepted : Accepts ip frame
  mayFragment : wordAt frame 6 &&& ipFlagDf = 0
  length : headerLength frame ≤ wordAt frame 2
  fits : offsetOf frame + lengthOf frame ≤ fragmentRow
  identified : identificationOf frame ≠ 0

/-- The slot `ip_received` stores a fragment in. -/
def Reassembly.slotFor (s : Reassembly) (frame : List UInt8) : Option Nat :=
  findSlot s.ids (identificationOf frame) 12 0

/-- A fragment that arrives, and the datagram it is of. -/
structure Arriving where
  datagram : Nat
  frame : List UInt8

/-- The reassembly with what is known of the datagrams in progress. -/
structure Progress where
  reassembly : Reassembly
  inProgress : Finset Nat
  slot : Nat → Nat
  source : Nat → IpAddr
  identification : Nat → Nat
  /-- Where the next fragment starts. -/
  next : Nat → Nat

namespace Progress

variable (ip : IpAddr) (st : Progress) (arriving : Arriving)

/-- The slot of the datagram: that of its first fragment. -/
def slots : Nat → Nat :=
  if arriving.datagram ∈ st.inProgress then st.slot
  else Function.update st.slot arriving.datagram
    ((st.reassembly.slotFor arriving.frame).getD 0)

def step : Progress where
  reassembly := (ipReceived ip st.reassembly arriving.frame).2
  inProgress :=
    if isLast arriving.frame then st.inProgress.erase arriving.datagram
    else insert arriving.datagram st.inProgress
  slot := st.slots arriving
  source := Function.update st.source arriving.datagram (sourceOf arriving.frame)
  identification :=
    Function.update st.identification arriving.datagram
      (identificationOf arriving.frame)
  next := Function.update st.next arriving.datagram
    (offsetOf arriving.frame + lengthOf arriving.frame)

/-- The fragments of a datagram come in order, at most twelve datagrams are in
progress together, and those of one source have different identifications. -/
structure Arrives : Prop where
  fragment : IsFragment ip arriving.frame
  first : arriving.datagram ∉ st.inProgress → offsetOf arriving.frame = 0
  later : arriving.datagram ∈ st.inProgress →
    offsetOf arriving.frame = st.next arriving.datagram ∧
      sourceOf arriving.frame = st.source arriving.datagram ∧
      identificationOf arriving.frame = st.identification arriving.datagram
  twelve : (insert arriving.datagram st.inProgress).card ≤ 12
  distinct : ∀ k ∈ st.inProgress, k ≠ arriving.datagram →
    st.source k = sourceOf arriving.frame →
    st.identification k ≠ identificationOf arriving.frame

/-- The fragment is stored in a slot, that of its datagram if it is not the first,
and what other datagrams in progress have stored stays. -/
def StoredApart : Prop :=
  ∃ i, st.reassembly.slotFor arriving.frame = some i ∧
    (arriving.datagram ∈ st.inProgress → i = st.slot arriving.datagram) ∧
    ∀ k ∈ st.inProgress, k ≠ arriving.datagram → st.slot k ≠ i ∧
      ∀ a < fragmentRow,
        (st.step ip arriving).reassembly.fragmentStorage
            (st.slot k * fragmentRow + a) =
          st.reassembly.fragmentStorage (st.slot k * fragmentRow + a)

/-- The condition: below the slot of the datagram every slot is in use with another
identification; for a first fragment, below the first free slot. -/
def SlotsBelow : Prop :=
  if arriving.datagram ∈ st.inProgress then
    ∀ j < st.slot arriving.datagram, st.reassembly.ids j ≠ 0 ∧
      st.reassembly.ids j ≠ identificationOf arriving.frame
  else ∀ j < 12, st.reassembly.ids j = identificationOf arriving.frame →
    ∃ i < j, st.reassembly.ids i = 0

instance decidableSlotsBelow (st : Progress) (arriving : Arriving) :
    Decidable (st.SlotsBelow arriving) := by
  unfold SlotsBelow
  infer_instance

/-- Each datagram in progress has a slot of its own with its identification, and
the other slots are free. -/
structure Placed : Prop where
  used : ∀ k ∈ st.inProgress, st.slot k < 12 ∧
    st.reassembly.ids (st.slot k) = st.identification k ∧ st.identification k ≠ 0
  apart : ∀ k ∈ st.inProgress, ∀ l ∈ st.inProgress, st.slot k = st.slot l → k = l
  free : ∀ i < 12, st.reassembly.ids i ≠ 0 → ∃ k ∈ st.inProgress, st.slot k = i

end Progress

theorem findSlot_eq_some {ids : Nat → Nat} {identification : Nat} :
    ∀ {n i j : Nat}, findSlot ids identification n i = some j ↔
      i ≤ j ∧ j < i + n ∧ (ids j = identification ∨ ids j = 0) ∧
        ∀ k, i ≤ k → k < j → ids k ≠ identification ∧ ids k ≠ 0
  | 0, i, j => by
      rw [findSlot]
      constructor
      · intro h
        cases h
      · intro h
        omega
  | n + 1, i, j => by
      rw [findSlot]
      split
      · rename_i hfound
        constructor
        · intro h
          obtain rfl := Option.some.inj h
          exact ⟨Nat.le_refl i, by omega, hfound, fun k hk hlt => by omega⟩
        · rintro ⟨hle, -, -, hbelow⟩
          rcases Nat.eq_or_lt_of_le hle with heq | hlt
          · rw [heq]
          · have hnot := hbelow i (Nat.le_refl i) hlt
            exact absurd hfound (not_or.mpr hnot)
      · rename_i hnot
        rw [findSlot_eq_some]
        constructor
        · rintro ⟨hle, hlt, hfound, hbelow⟩
          refine ⟨by omega, by omega, hfound, fun k hk hkj => ?_⟩
          rcases Nat.eq_or_lt_of_le hk with heq | hgt
          · exact heq ▸ not_or.mp hnot
          · exact hbelow k hgt hkj
        · rintro ⟨hle, hlt, hfound, hbelow⟩
          have hne : i ≠ j := fun heq => hnot (heq ▸ hfound)
          exact ⟨by omega, by omega, hfound, fun k hk hkj => hbelow k (by omega) hkj⟩

theorem ipReceived_slot {ip : IpAddr} {s : Reassembly} {frame : List UInt8}
    (h : IsFragment ip frame) {i : Nat} (hslot : s.slotFor frame = some i) :
    (ipReceived ip s frame).2 =
      ⟨storeFragment s.fragmentStorage (i * fragmentRow + offsetOf frame)
        (frame.drop (headerLength frame)) (lengthOf frame),
      Function.update s.ids i
        (if isLast frame then 0 else identificationOf frame)⟩ := by
  obtain ⟨hversion, hihl, hdst, hsum⟩ := h.accepted
  have hlength : ((wordAt frame 2 : Int) -
      ((frame.getD 0 0).toNat % 16 * 4 : Nat)).toNat = lengthOf frame :=
    Int.toNat_sub _ _
  rw [Reassembly.slotFor, identificationOf] at hslot
  rw [ipReceived, if_neg (by omega), if_neg fun hc => hdst.elim hc.1 hc.2,
    if_neg (not_not.mpr hsum), receivePayload, if_neg (not_not.mpr h.mayFragment),
    hslot]
  dsimp only
  rw [hlength, isLast]
  by_cases hlast : wordAt frame 6 &&& ipFlagMf = 0
  · rw [if_pos hlast, decide_eq_true hlast, if_pos rfl]
    rfl
  · rw [if_neg hlast, decide_eq_false hlast]
    rfl

theorem ipReceived_rows {ip : IpAddr} {s : Reassembly} {frame : List UInt8}
    (h : IsFragment ip frame) {i j a : Nat} (hslot : s.slotFor frame = some i)
    (hji : j ≠ i) (ha : a < fragmentRow) :
    (ipReceived ip s frame).2.fragmentStorage (j * fragmentRow + a) =
      s.fragmentStorage (j * fragmentRow + a) := by
  have hfits := h.fits
  rw [ipReceived_slot h hslot]
  dsimp only
  rw [storeFragment, if_neg]
  unfold fragmentRow at *
  rcases Nat.lt_or_gt_of_ne hji with hlt | hgt
  · omega
  · omega

namespace Progress

variable {ip : IpAddr} {st : Progress} {arriving : Arriving}

/-- While fewer than twelve datagrams are in progress, a slot is free. -/
theorem Placed.exists_free (h : st.Placed) (hcard : st.inProgress.card < 12) :
    ∃ i < 12, st.reassembly.ids i = 0 := by
  by_contra hnone
  have hall : ∀ i < 12, st.reassembly.ids i ≠ 0 := fun i hi heq => hnone ⟨i, hi, heq⟩
  have hsubset : Finset.range 12 ⊆ st.inProgress.image st.slot := by
    intro i hi
    have hlt := Finset.mem_range.mp hi
    obtain ⟨k, hk, hslot⟩ := h.free i hlt (hall i hlt)
    exact Finset.mem_image.mpr ⟨k, hk, hslot⟩
  have hle := (Finset.card_le_card hsubset).trans Finset.card_image_le
  rw [Finset.card_range] at hle
  omega

/-- Being stored apart is a matter of the slot. -/
theorem storedApart_iff_slot (ha : st.Arrives ip arriving) :
    st.StoredApart ip arriving ↔
      ∃ i, st.reassembly.slotFor arriving.frame = some i ∧
        (arriving.datagram ∈ st.inProgress → i = st.slot arriving.datagram) ∧
        ∀ k ∈ st.inProgress, k ≠ arriving.datagram → st.slot k ≠ i := by
  constructor
  · rintro ⟨i, hslot, hself, hother⟩
    exact ⟨i, hslot, hself, fun k hk hne => (hother k hk hne).1⟩
  · rintro ⟨i, hslot, hself, hother⟩
    refine ⟨i, hslot, hself, fun k hk hne => ⟨hother k hk hne, fun a hlt => ?_⟩⟩
    exact ipReceived_rows ha.fragment hslot (hother k hk hne) hlt

theorem storedApart_iff (h : st.Placed) (ha : st.Arrives ip arriving) :
    st.StoredApart ip arriving ↔ st.SlotsBelow arriving := by
  rw [storedApart_iff_slot ha, SlotsBelow, Reassembly.slotFor]
  simp only [findSlot_eq_some]
  split
  · rename_i hin
    obtain ⟨hlt, hids, hne⟩ := h.used _ hin
    obtain ⟨-, -, hsame⟩ := ha.later hin
    constructor
    · rintro ⟨i, ⟨-, -, -, hbelow⟩, hself, -⟩ j hj
      rw [← hself hin] at hj
      exact (hbelow j (Nat.zero_le j) hj).symm
    · intro hbelow
      refine ⟨st.slot arriving.datagram, ⟨Nat.zero_le _, by omega, Or.inl ?_,
        fun j _ hj => (hbelow j hj).symm⟩, fun _ => rfl, fun k hk hkne heq => ?_⟩
      · rw [hids, hsame]
      · exact hkne (h.apart k hk _ hin heq)
  · rename_i hin
    have hid := ha.fragment.identified
    constructor
    · rintro ⟨i, ⟨-, hlt, hfound, hbelow⟩, -, hother⟩ j hj hids
      have hfree : st.reassembly.ids i = 0 := by
        by_contra hused
        obtain ⟨k, hk, hslot⟩ := h.free i (by omega) hused
        exact hother k hk (fun heq => hin (heq ▸ hk)) hslot
      have hij : i ≠ j := fun heq => hid (hids.symm.trans (heq ▸ hfree))
      have hnot : ¬j < i := fun hji => (hbelow j (Nat.zero_le j) hji).1 hids
      exact ⟨i, by omega, hfree⟩
    · intro hbelow
      have hcard : st.inProgress.card < 12 := by
        have htwelve := ha.twelve
        rw [Finset.card_insert_of_notMem hin] at htwelve
        omega
      classical
      let hex := h.exists_free hcard
      have hfree := (Nat.find_spec hex).2
      have hlt := (Nat.find_spec hex).1
      have hleast : ∀ j < Nat.find hex, st.reassembly.ids j ≠ 0 := fun j hj heq =>
        Nat.find_min hex hj ⟨by omega, heq⟩
      refine ⟨Nat.find hex, ⟨Nat.zero_le _, by omega, Or.inr hfree, fun j _ hj => ?_⟩,
        fun hc => absurd hc hin, fun k hk _ heq => ?_⟩
      · refine ⟨fun heq => ?_, hleast j hj⟩
        obtain ⟨i, hi, hzero⟩ := hbelow j (by omega) heq
        exact hleast i (by omega) hzero
      · obtain ⟨-, hids, hne⟩ := h.used k hk
        rw [heq, hfree] at hids
        exact hne hids.symm

/-- A fragment stored apart leaves each datagram in progress in its own slot. -/
theorem placed_step (h : st.Placed) (ha : st.Arrives ip arriving)
    (happ : st.StoredApart ip arriving) : (st.step ip arriving).Placed := by
  obtain ⟨i, hslot, hself, hother⟩ := (storedApart_iff_slot ha).mp happ
  have hfound := hslot
  rw [Reassembly.slotFor, findSlot_eq_some] at hfound
  obtain ⟨-, hlt, -, -⟩ := hfound
  have hids : (st.step ip arriving).reassembly.ids = Function.update st.reassembly.ids i
      (if isLast arriving.frame then 0 else identificationOf arriving.frame) := by
    rw [step, ipReceived_slot ha.fragment hslot]
  have hat : (st.slots arriving) arriving.datagram = i := by
    rw [slots]
    split
    · rename_i hin
      exact (hself hin).symm
    · rw [Function.update_self, hslot]
      rfl
  have hslots : ∀ k, k ≠ arriving.datagram → (st.slots arriving) k = st.slot k := by
    intro k hk
    rw [slots]
    split
    · rfl
    · exact Function.update_of_ne hk _ _
  have hmem : ∀ k ∈ (st.step ip arriving).inProgress, k ≠ arriving.datagram →
      k ∈ st.inProgress := by
    intro k hk hne
    rw [step] at hk
    dsimp only at hk
    split at hk
    · exact Finset.mem_of_mem_erase hk
    · exact Finset.mem_of_mem_insert_of_ne hk hne
  have hlast : arriving.datagram ∈ (st.step ip arriving).inProgress →
      isLast arriving.frame = false := by
    intro hk
    rw [step] at hk
    dsimp only at hk
    split at hk
    · exact absurd hk (Finset.notMem_erase _ _)
    · rename_i hnot
      exact (Bool.not_eq_true _).mp hnot
  constructor
  · intro k hk
    rw [hids]
    show (st.slots arriving) k < 12 ∧ Function.update st.reassembly.ids i _
      ((st.slots arriving) k) = Function.update st.identification _ _ k ∧
      Function.update st.identification _ _ k ≠ 0
    by_cases hkd : k = arriving.datagram
    · subst hkd
      rw [hat, Function.update_self, Function.update_self, hlast hk]
      exact ⟨by omega, rfl, ha.fragment.identified⟩
    · have hin := hmem k hk hkd
      rw [hslots k hkd, Function.update_of_ne hkd,
        Function.update_of_ne (hother k hin hkd)]
      exact h.used k hin
  · intro k hk l hl heq
    have heq' : (st.slots arriving) k = (st.slots arriving) l := heq
    by_cases hkd : k = arriving.datagram
    · by_cases hld : l = arriving.datagram
      · rw [hkd, hld]
      · rw [hkd, hat, hslots l hld] at heq'
        exact absurd heq'.symm (hother l (hmem l hl hld) hld)
    · by_cases hld : l = arriving.datagram
      · rw [hld, hat, hslots k hkd] at heq'
        exact absurd heq' (hother k (hmem k hk hkd) hkd)
      · rw [hslots k hkd, hslots l hld] at heq'
        exact h.apart k (hmem k hk hkd) l (hmem l hl hld) heq'
  · intro j hj hne
    rw [hids, Function.update_apply] at hne
    split at hne
    · rename_i hji
      refine ⟨arriving.datagram, ?_, hat.trans hji.symm⟩
      rw [step]
      dsimp only
      split
      · rename_i hlast'
        rw [if_pos hlast'] at hne
        exact absurd rfl hne
      · exact Finset.mem_insert_self _ _
    · rename_i hji
      obtain ⟨k, hk, hkslot⟩ := h.free j hj hne
      have hkd : k ≠ arriving.datagram := by
        rintro rfl
        exact hji (hkslot.symm.trans (hself hk).symm)
      refine ⟨k, ?_, (hslots k hkd).trans hkslot⟩
      rw [step]
      dsimp only
      split
      · exact Finset.mem_erase.mpr ⟨hkd, hk⟩
      · exact Finset.mem_insert_of_mem hk

end Progress

def zeroProgress : Progress where
  reassembly := ⟨fun _ => 0, fun _ => 0⟩
  inProgress := ∅
  slot := fun _ => 0
  source := fun _ => ⟨0, 0, 0, 0⟩
  identification := fun _ => 0
  next := fun _ => 0

/-- For every interleaving of fragments, all are stored apart if and only if each
meets the condition when it arrives. -/
theorem fragments_apart_iff {ip : IpAddr} {fragments : List Arriving}
    (harrive : Along (Progress.step ip) (Progress.Arrives ip) zeroProgress
      fragments) :
    Along (Progress.step ip) (Progress.StoredApart ip) zeroProgress fragments ↔
      Along (Progress.step ip) Progress.SlotsBelow zeroProgress fragments := by
  have hplaced : zeroProgress.Placed := by
    refine ⟨fun k hk => absurd hk (Finset.notMem_empty k),
      fun k hk => absurd hk (Finset.notMem_empty k), fun i _ hne => absurd rfl hne⟩
  exact Along.iff_of_step Progress.Placed
    (fun st arriving h ha =>
      ⟨Progress.storedApart_iff h ha, Progress.placed_step h ha⟩) hplaced harrive

/-- A fragment of eight bytes from `src` to 10.0.0.1. -/
def smallFragment (src : IpAddr) (identification flagsOffset : Nat) : List UInt8 :=
  sealedHeader 28 identification flagsOffset ipProtoUdp src ⟨10, 0, 0, 1⟩ ++ List.replicate 8 0

/-- Two datagrams of two fragments each; the second comes between the fragments of the
first. -/
def nestedDatagrams : List Arriving :=
  [⟨0, smallFragment ⟨10, 0, 0, 2⟩ 5 ipFlagMf⟩, ⟨1, smallFragment ⟨10, 0, 0, 2⟩ 6 ipFlagMf⟩,
    ⟨1, smallFragment ⟨10, 0, 0, 2⟩ 6 1⟩, ⟨0, smallFragment ⟨10, 0, 0, 2⟩ 5 1⟩]

theorem smallFragment_isFragment :
    ∀ src ∈ [(⟨10, 0, 0, 2⟩ : IpAddr), ⟨10, 0, 0, 3⟩], ∀ identification ∈ [5, 6],
      ∀ flagsOffset ∈ [ipFlagMf, 1],
        IsFragment ⟨10, 0, 0, 1⟩ (smallFragment src identification flagsOffset) := by
  intro src hsrc identification hid flagsOffset hflags
  simp only [List.mem_cons, List.not_mem_nil, or_false] at hsrc hid hflags
  obtain rfl | rfl := hsrc <;> obtain rfl | rfl := hid <;> obtain rfl | rfl := hflags <;>
    refine ⟨?_, ?_, ?_, ?_, ?_⟩ <;> decide

theorem fragments_apart_iff_nested :
    Along (Progress.step ⟨10, 0, 0, 1⟩) (Progress.Arrives ⟨10, 0, 0, 1⟩) zeroProgress
        nestedDatagrams ∧
      Along (Progress.step ⟨10, 0, 0, 1⟩) (Progress.StoredApart ⟨10, 0, 0, 1⟩)
        zeroProgress nestedDatagrams := by
  have hfragment := smallFragment_isFragment ⟨10, 0, 0, 2⟩ (by simp)
  have harrive : Along (Progress.step ⟨10, 0, 0, 1⟩)
      (Progress.Arrives ⟨10, 0, 0, 1⟩) zeroProgress nestedDatagrams := by
    refine ⟨⟨hfragment 5 (by simp) ipFlagMf (by simp), ?_, ?_, ?_, ?_⟩,
      ⟨hfragment 6 (by simp) ipFlagMf (by simp), ?_, ?_, ?_, ?_⟩,
      ⟨hfragment 6 (by simp) 1 (by simp), ?_, ?_, ?_, ?_⟩,
      ⟨hfragment 5 (by simp) 1 (by simp), ?_, ?_, ?_, ?_⟩, trivial⟩ <;>
      decide
  refine ⟨harrive, (fragments_apart_iff harrive).mpr ⟨?_, ?_, ?_, ?_, trivial⟩⟩ <;>
    decide

/-- Two datagrams of different sources with one identification. -/
def twoSources : List Arriving :=
  [⟨0, smallFragment ⟨10, 0, 0, 2⟩ 5 ipFlagMf⟩, ⟨1, smallFragment ⟨10, 0, 0, 3⟩ 5 ipFlagMf⟩]

theorem twoSources_mixed :
    Along (Progress.step ⟨10, 0, 0, 1⟩) (Progress.Arrives ⟨10, 0, 0, 1⟩) zeroProgress
        twoSources ∧
      ¬Along (Progress.step ⟨10, 0, 0, 1⟩) (Progress.StoredApart ⟨10, 0, 0, 1⟩)
        zeroProgress twoSources := by
  have hfirst := smallFragment_isFragment ⟨10, 0, 0, 2⟩ (by simp) 5 (by simp) ipFlagMf (by simp)
  have hother := smallFragment_isFragment ⟨10, 0, 0, 3⟩ (by simp) 5 (by simp) ipFlagMf (by simp)
  have harrive : Along (Progress.step ⟨10, 0, 0, 1⟩)
      (Progress.Arrives ⟨10, 0, 0, 1⟩) zeroProgress twoSources := by
    refine ⟨⟨hfirst, ?_, ?_, ?_, ?_⟩, ⟨hother, ?_, ?_, ?_, ?_⟩, trivial⟩ <;>
      decide
  refine ⟨harrive, fun happ => ?_⟩
  obtain ⟨-, ⟨i, hslot, -, hapart⟩, -⟩ := happ
  have hzero : (zeroProgress.step ⟨10, 0, 0, 1⟩
      ⟨0, smallFragment ⟨10, 0, 0, 2⟩ 5 ipFlagMf⟩).reassembly.slotFor
        (smallFragment ⟨10, 0, 0, 3⟩ 5 ipFlagMf) = some 0 := by decide
  obtain rfl := Option.some.inj (hslot.symm.trans hzero)
  exact (hapart 0 (by decide) (by decide)).1 (by decide)

end GlitchedOS
