/-
The RTL8139 driver.  The card writes packets into a ring of 8192 bytes, each behind a
header of four bytes, and the interrupt handler copies one packet out of the ring.
-/
import Mathlib.Data.List.Range
import Mathlib.Data.Nat.Bitwise
import Mathlib.Logic.Function.Basic

namespace GlitchedOS

/-- What the driver keeps of a card.  The memory of `rxBuffer` goes on behind the ring. -/
structure Rtl8139 where
  ioBase : Nat
  irq : UInt8
  rxBuffer : Nat → UInt8
  rxOffset : Nat
  receivedPackets : Nat → Nat → UInt8
  receivedPacketLengths : Nat → Nat
  receivedPacketWriteHead : Nat

/-- What the handler does to the card and to the network stack. -/
inductive Rtl8139Event where
  | outw (port value : Nat)
  | frameReceived (card : Nat)
deriving DecidableEq, Repr

/-- The size of the ring. -/
def rxRing : Nat := 8192

namespace Rtl8139

variable (card : Rtl8139)

/-- A `uint16_t` of the receive buffer. -/
def rxWord (a : Nat) : Nat := (card.rxBuffer a).toNat + 2 ^ 8 * (card.rxBuffer (a + 1)).toNat

def packetStatus : Nat := card.rxWord card.rxOffset

def packetLength : Nat := card.rxWord (card.rxOffset + 2)

/-- `& ~3` on a `size_t`. -/
def alignDown (n : Nat) : Nat := n &&& (2 ^ 64 - 4)

/-- The packet is left behind, and the card is told so. -/
def skipPacket : Rtl8139 × List Rtl8139Event :=
  let offset := alignDown (card.rxOffset + card.packetLength + 4 + 3)
  let rxOffset := offset % rxRing
  let capr := if 16 ≤ rxOffset then rxOffset - 16 else rxRing + rxOffset - 16
  ({ card with rxOffset := rxOffset }, [.outw (card.ioBase + 0x38) capr])

/-- One byte of the copy: where `frame` points to, and the packet. -/
def copyRound (rx : Nat → UInt8) (offset : Nat) (at_ : Nat × (Nat → UInt8)) (j : Nat) :
    Nat × (Nat → UInt8) :=
  let (frame, packet) := at_
  (if rxRing ≤ offset + 4 + j then (offset + 4 + j) % rxRing else frame + 1,
    Function.update packet j (rx frame))

/-- The loop that copies a packet over what its buffer held. -/
def copyPacket (rx : Nat → UInt8) (offset length : Nat) (packet : Nat → UInt8) :
    Nat × (Nat → UInt8) :=
  (List.range length).foldl (copyRound rx offset) (offset + 4, packet)

def storePacket : Rtl8139 :=
  let head := card.receivedPacketWriteHead
  let packet := (copyPacket card.rxBuffer card.rxOffset card.packetLength
    (card.receivedPackets head)).2
  { card with
    receivedPackets := Function.update card.receivedPackets head packet
    receivedPacketLengths := Function.update card.receivedPacketLengths head card.packetLength
    receivedPacketWriteHead := (head + 1) % 512 }

/-- The part of the handler for the card that raised the interrupt. -/
def interrupt (status index : Nat) : Rtl8139 × List Rtl8139Event :=
  let acknowledge := Rtl8139Event.outw (card.ioBase + 0x3E) status
  if status &&& 1 = 0 then (card, [acknowledge])
  else if card.packetStatus &&& 1 = 0 then
    let (card, events) := card.skipPacket
    (card, acknowledge :: events)
  else
    let (_, events) := card.skipPacket
    let rxOffset := card.skipPacket.1.rxOffset
    ({ card.storePacket with rxOffset := rxOffset },
      acknowledge :: .frameReceived index :: events)

end Rtl8139

/-- The loop of `rtl8139_irq_handler` from a card on; `inw` reads a port. -/
def rtl8139IrqLoop (inw : Nat → Nat) (irq : UInt8) :
    Nat → List Rtl8139 → List Rtl8139 × List Rtl8139Event
  | _, [] => ([], [])
  | index, card :: rest =>
    if card.irq = irq then
      let (card, events) := card.interrupt (inw (card.ioBase + 0x3E)) index
      (card :: rest, events)
    else
      let (rest, events) := rtl8139IrqLoop inw irq (index + 1) rest
      (card :: rest, events)

/-- `rtl8139_irq_handler` -/
def rtl8139IrqHandler (inw : Nat → Nat) (cards : List Rtl8139) (irq : UInt8) :
    List Rtl8139 × List Rtl8139Event :=
  rtl8139IrqLoop inw irq 0 cards

namespace Rtl8139

/-- Where `frame` points to before round `j`: the byte in front of the right one, once the
end of the ring is passed. -/
def frameAt (offset j : Nat) : Nat :=
  if offset + 4 + j ≤ rxRing then offset + 4 + j else (offset + 4 + j - 1) % rxRing

/-- Where the byte `j` of a packet lies in the ring. -/
def ringPlace (offset j : Nat) : Nat := (offset + 4 + j) % rxRing

variable {rx packet : Nat → UInt8} {offset length j : Nat} {card : Rtl8139}

theorem frameAt_zero (hoffset : offset + 4 ≤ rxRing) : frameAt offset 0 = offset + 4 :=
  if_pos hoffset

theorem frameAt_succ (j : Nat) :
    frameAt offset (j + 1) =
      if rxRing ≤ offset + 4 + j then (offset + 4 + j) % rxRing else frameAt offset j + 1 := by
  unfold frameAt
  by_cases hpast : rxRing ≤ offset + 4 + j
  · rw [if_pos hpast, if_neg (by omega), ← Nat.add_assoc, Nat.add_sub_cancel]
  · rw [if_neg hpast, if_pos (by omega), if_pos (by omega)]
    rfl

/-- The copy takes byte `j` from where `frame` points to in round `j`. -/
theorem copyPacket_eq (hoffset : offset + 4 ≤ rxRing) (length : Nat) :
    copyPacket rx offset length packet =
      (frameAt offset length,
        fun j => if j < length then rx (frameAt offset j) else packet j) := by
  induction length with
  | zero => simp [copyPacket, frameAt_zero hoffset]
  | succ length ih =>
      rw [copyPacket, List.range_succ, List.foldl_append, ← copyPacket, ih, List.foldl_cons,
        List.foldl_nil, copyRound, ← frameAt_succ]
      refine Prod.ext rfl (funext fun j => ?_)
      dsimp only
      rw [Function.update_apply]
      by_cases hlast : j = length
      · subst hlast
        rw [if_pos rfl, if_pos (Nat.lt_succ_self j)]
      · rw [if_neg hlast]
        simp only [show j < length + 1 ↔ j < length by omega]

/-- In front of the end of the ring the copy takes the right byte. -/
theorem frameAt_inside (hin : offset + 4 + j < rxRing) :
    frameAt offset j = ringPlace offset j := by
  rw [frameAt, ringPlace, if_pos hin.le, Nat.mod_eq_of_lt hin]

/-- The first byte behind the end is taken from behind the ring. -/
theorem frameAt_end (hend : offset + 4 + j = rxRing) :
    frameAt offset j = rxRing ∧ ringPlace offset j = 0 := by
  rw [frameAt, ringPlace, hend, if_pos (Nat.le_refl _), Nat.mod_self]
  exact ⟨rfl, rfl⟩

/-- Every later byte is taken from the place of the byte before it. -/
theorem frameAt_past {k : Nat} (hpast : offset + 4 + j = rxRing + (k + 1))
    (hk : k + 1 < rxRing) : frameAt offset j = k ∧ ringPlace offset j = k + 1 := by
  rw [frameAt, ringPlace, hpast, if_neg (by omega), ← Nat.add_assoc, Nat.add_sub_cancel,
    Nat.add_mod_left, Nat.mod_eq_of_lt (Nat.lt_of_succ_lt hk), Nat.add_assoc,
    Nat.add_mod_left, Nat.mod_eq_of_lt hk]
  exact ⟨rfl, rfl⟩

/-- The bytes of a packet are right exactly when its bytes behind the end of the ring are
all the byte that lies behind the ring. -/
theorem copied_right_iff (hoffset : offset + 4 ≤ rxRing)
    (hlength : offset + 4 + length ≤ 2 * rxRing) :
    (∀ j < length, rx (frameAt offset j) = rx (ringPlace offset j)) ↔
      ∀ k, rxRing + k < offset + 4 + length → rx k = rx rxRing := by
  constructor
  · intro hright k hk
    induction k with
    | zero =>
        obtain ⟨hframe, hplace⟩ :=
          frameAt_end (show offset + 4 + (rxRing - (offset + 4)) = rxRing by omega)
        have hbyte := hright (rxRing - (offset + 4)) (by omega)
        rw [hframe, hplace] at hbyte
        exact hbyte.symm
    | succ k ih =>
        have hpast : offset + 4 + (rxRing + (k + 1) - (offset + 4)) = rxRing + (k + 1) := by
          omega
        obtain ⟨hframe, hplace⟩ := frameAt_past hpast (by omega)
        have hbyte := hright (rxRing + (k + 1) - (offset + 4)) (by omega)
        rw [hframe, hplace] at hbyte
        exact hbyte.symm.trans (ih (by omega))
  · intro hsame j hj
    rcases Nat.lt_trichotomy (offset + 4 + j) rxRing with hin | hend | hpast
    · rw [frameAt_inside hin]
    · obtain ⟨hframe, hplace⟩ := frameAt_end hend
      rw [hframe, hplace, hsame 0 (by omega)]
    · obtain ⟨k, hk⟩ := Nat.exists_eq_add_of_lt hpast
      have hpast : offset + 4 + j = rxRing + (k + 1) := hk
      obtain ⟨hframe, hplace⟩ := frameAt_past hpast (by omega)
      rw [hframe, hplace, hsame k (by omega), hsame (k + 1) (by omega)]

theorem alignDown_eq {n : Nat} (hn : n < 2 ^ 64) : alignDown n = n / 4 * 4 := by
  have hmask : ∀ i, Nat.testBit (2 ^ 64 - 4) i = decide (2 ≤ i ∧ i < 64) := by
    intro i
    by_cases hi : i < 64
    · have hall : ∀ j : Fin 64, Nat.testBit (2 ^ 64 - 4) j.1 = decide (2 ≤ j.1 ∧ j.1 < 64) := by
        decide
      exact hall ⟨i, hi⟩
    · rw [Nat.testBit_lt_two_pow (Nat.lt_of_lt_of_le (by decide)
        (Nat.pow_le_pow_right (by decide) (Nat.le_of_not_lt hi)))]
      simp [hi]
  refine Nat.eq_of_testBit_eq fun i => ?_
  rw [alignDown, Nat.testBit_and, hmask, show n / 4 * 4 = n / 2 ^ 2 * 2 ^ 2 from rfl,
    Nat.testBit_mul_two_pow, Nat.testBit_div_two_pow]
  by_cases hlow : 2 ≤ i
  · rw [Nat.sub_add_cancel hlow]
    by_cases hi : i < 64
    · simp [hlow, hi]
    · rw [Nat.testBit_lt_two_pow (Nat.lt_of_lt_of_le hn
        (Nat.pow_le_pow_right (by decide) (Nat.le_of_not_lt hi)))]
      simp
  · simp [hlow]

/-- The packet in the slot is the one of the ring, and the next one is looked for behind
it. -/
structure Unwrapped (card after : Rtl8139) : Prop where
  bytes : ∀ j < card.packetLength,
    after.receivedPackets card.receivedPacketWriteHead j =
      card.rxBuffer ((card.rxOffset + 4 + j) % rxRing)
  next : after.rxOffset = (card.rxOffset + card.packetLength + 7) / 4 * 4 % rxRing

theorem interrupt_eq {status : Nat} (index : Nat) (hstatus : status &&& 1 ≠ 0)
    (hpacket : card.packetStatus &&& 1 ≠ 0) :
    (card.interrupt status index).1 =
      { card.storePacket with rxOffset := card.skipPacket.1.rxOffset } := by
  rw [interrupt, if_neg hstatus, if_neg hpacket]

theorem interrupt_unwrapped_iff {status : Nat} (index : Nat) (hstatus : status &&& 1 ≠ 0)
    (hpacket : card.packetStatus &&& 1 ≠ 0) (hoffset : card.rxOffset + 4 ≤ rxRing)
    (hlength : card.packetLength ≤ 2044) :
    card.Unwrapped (card.interrupt status index).1 ↔
      ∀ k, rxRing + k < card.rxOffset + 4 + card.packetLength →
        card.rxBuffer k = card.rxBuffer rxRing := by
  have hring : rxRing = 8192 := rfl
  rw [interrupt_eq index hstatus hpacket, ← copied_right_iff hoffset (by omega)]
  have hbytes : ∀ j < card.packetLength,
      card.storePacket.receivedPackets card.receivedPacketWriteHead j =
        card.rxBuffer (frameAt card.rxOffset j) := by
    intro j hj
    have hslot : card.storePacket.receivedPackets card.receivedPacketWriteHead =
        (copyPacket card.rxBuffer card.rxOffset card.packetLength
          (card.receivedPackets card.receivedPacketWriteHead)).2 := Function.update_self ..
    rw [hslot, copyPacket_eq hoffset]
    exact if_pos hj
  constructor
  · intro hright j hj
    exact (hbytes j hj).symm.trans (hright.bytes j hj)
  · intro hright
    refine ⟨fun j hj => (hbytes j hj).trans (hright j hj), ?_⟩
    change alignDown (card.rxOffset + card.packetLength + 4 + 3) % rxRing = _
    rw [alignDown_eq (by omega)]

end Rtl8139

/-- The handler serves the first card with the interrupt's number. -/
theorem rtl8139IrqLoop_append (inw : Nat → Nat) {card : Rtl8139} {before : List Rtl8139}
    (hbefore : ∀ c ∈ before, c.irq ≠ card.irq) (rest : List Rtl8139) (index : Nat) :
    rtl8139IrqLoop inw card.irq index (before ++ card :: rest) =
      let served := card.interrupt (inw (card.ioBase + 0x3E)) (index + before.length)
      (before ++ served.1 :: rest, served.2) := by
  induction before generalizing index with
  | nil => simp [rtl8139IrqLoop]
  | cons c before ih =>
      have hrest := ih (fun d hd => hbefore d (List.mem_cons_of_mem c hd)) (index + 1)
      rw [List.cons_append, rtl8139IrqLoop, if_neg (hbefore c List.mem_cons_self), hrest,
        List.length_cons, Nat.add_right_comm, Nat.add_assoc]
      rfl

/-- A packet is copied out of the ring right exactly when each of its bytes behind the end
of the ring is the byte that lies behind the ring in memory. -/
theorem rtl8139_unwraps_iff (inw : Nat → Nat) (before rest : List Rtl8139) (card : Rtl8139)
    (hbefore : ∀ c ∈ before, c.irq ≠ card.irq)
    (hstatus : inw (card.ioBase + 0x3E) &&& 1 ≠ 0)
    (hpacket : card.packetStatus &&& 1 ≠ 0)
    (hoffset : card.rxOffset < rxRing ∧ card.rxOffset % 4 = 0)
    (hlength : card.packetLength ≤ 2044) :
    (∃ after, (rtl8139IrqHandler inw (before ++ card :: rest) card.irq).1 =
        before ++ after :: rest ∧ card.Unwrapped after) ↔
      ∀ k, rxRing + k < card.rxOffset + 4 + card.packetLength →
        card.rxBuffer k = card.rxBuffer rxRing := by
  have hring : rxRing = 8192 := rfl
  rw [← Rtl8139.interrupt_unwrapped_iff (0 + before.length) hstatus hpacket (by omega)
    hlength, rtl8139IrqHandler, rtl8139IrqLoop_append inw hbefore rest 0]
  constructor
  · rintro ⟨after, hafter, hright⟩
    have hhead := (List.cons.inj (List.append_cancel_left hafter)).1
    exact hhead ▸ hright
  · intro hright
    exact ⟨_, rfl, hright⟩

/-- A card with a packet of `length` bytes at `offset`, in a ring of the bytes `ring`. -/
def cardWith (offset length : Nat) (ring : Nat → UInt8) : Rtl8139 where
  ioBase := 0xC000
  irq := 11
  rxBuffer a := if a = offset then 1 else if a = offset + 1 then 0
    else if a = offset + 2 then length.toUInt8 else if a = offset + 3 then 0 else ring a
  rxOffset := offset
  receivedPackets _ _ := 0
  receivedPacketLengths _ := 0
  receivedPacketWriteHead := 0

/-- A packet that ends with the ring. -/
theorem rtl8139_unwraps_before_end :
    ∃ after, (rtl8139IrqHandler (fun _ => 1) [cardWith 8128 60 Nat.toUInt8] 11).1 = [after] ∧
      (cardWith 8128 60 Nat.toUInt8).Unwrapped after :=
  (rtl8139_unwraps_iff (fun _ => 1) [] [] (cardWith 8128 60 Nat.toUInt8) nofun
    (by decide) (by decide) (by decide) (by decide)).mpr fun k hk => by
      have hlength : (cardWith 8128 60 Nat.toUInt8).packetLength = 60 := by decide
      rw [hlength] at hk
      change 8192 + k < 8128 + 4 + 60 at hk
      omega

/-- A packet of one byte whose header is the end of the ring. -/
def straddling : Rtl8139 := cardWith 8188 1 fun a => if a = 0 then 7 else 0

/-- The byte is taken from behind the ring. -/
theorem rtl8139_reads_behind_ring :
    straddling.rxOffset = 8188 ∧ straddling.packetLength = 1 ∧ straddling.rxBuffer 0 = 7 ∧
      ¬ ∃ after, (rtl8139IrqHandler (fun _ => 1) [straddling] 11).1 = [after] ∧
        straddling.Unwrapped after := by
  refine ⟨rfl, by decide, by decide, ?_⟩
  rintro ⟨after, hafter, hright⟩
  obtain rfl := (List.cons.inj hafter).1
  have hiff : straddling.Unwrapped (straddling.interrupt 1 0).1 ↔ _ :=
    Rtl8139.interrupt_unwrapped_iff 0 (by decide) (by decide) (by decide) (by decide)
  exact absurd (hiff.mp hright 0 (by decide)) (by decide)

end GlitchedOS
