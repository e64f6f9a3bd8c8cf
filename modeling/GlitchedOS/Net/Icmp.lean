/-
ICMP.  The checksum is the one's-complement sum of the words of a packet, so a packet that
is sent passes the test, a packet with one byte changed does not, and neither does the
answer to an echo request lose it.
-/
import GlitchedOS.Net.Checksum

namespace GlitchedOS

def icmpHeaderSize : Nat := 8

def icmpEchoReply : UInt8 := 0
def icmpDestUnreachable : UInt8 := 3
def icmpEchoRequest : UInt8 := 8

/-- The word `icmp_checksum` adds at `i`. -/
def icmpWord (data : Nat → UInt8) (len i : Nat) : Nat :=
  (data i).toNat * 256 + if i + 1 < len then (data (i + 1)).toNat else 0

/-- `icmp_checksum`.  The sum fits in 32 bits and is folded after three rounds. -/
def icmpChecksum (data : Nat → UInt8) (len : Nat) : Nat :=
  2 ^ 16 - 1 - foldCarry 4
    ((List.range ((len + 1) / 2)).map fun j => icmpWord data len (2 * j)).sum

/-- `icmp_hdr->checksum = checksum` -/
def setIcmpChecksum (packet : Nat → UInt8) (checksum : Nat) : Nat → UInt8 :=
  Function.update (Function.update packet 2 (hiByte checksum)) 3 (loByte checksum)

/-- The test of `icmp_received`. -/
def IcmpAccepted (packet : Nat → UInt8) (len : Nat) : Prop :=
  memWord packet 2 = icmpChecksum (setIcmpChecksum packet 0) len

instance (packet : Nat → UInt8) (len : Nat) : Decidable (IcmpAccepted packet len) :=
  inferInstanceAs (Decidable (memWord packet 2 = icmpChecksum (setIcmpChecksum packet 0) len))

/-- What `icmp_received` leaves of `pinging` and the packet, and what it gives to `ip_send`. -/
structure IcmpReceived where
  pinging : Int
  packet : Nat → UInt8
  reply : Option (IpAddr × List UInt8)

/-- `icmp_received` -/
def icmpReceived (pinging : Int) (packet : Nat → UInt8) (sender : IpAddr) (len : Nat) :
    IcmpReceived :=
  if IcmpAccepted packet len then
    if packet 0 = icmpEchoRequest then
      let reply := setIcmpChecksum (Function.update packet 0 icmpEchoReply) 0
      let reply := setIcmpChecksum reply (icmpChecksum reply len)
      ⟨pinging, reply, some (sender, (List.range len).map reply)⟩
    else if packet 0 = icmpEchoReply then ⟨0, packet, none⟩
    else if packet 0 = icmpDestUnreachable then
      ⟨if pinging ≠ 0 then -1 else pinging, packet, none⟩
    else ⟨pinging, packet, none⟩
  else ⟨pinging, setIcmpChecksum packet 0, none⟩

/-- `icmp_header_t` as it lies in memory. -/
def icmpHeader (type code : UInt8) (checksum : Nat) (identifier sequenceNumber : UInt16) :
    List UInt8 :=
  [type, code, hiByte checksum, loByte checksum, hiByte identifier.toNat,
    loByte identifier.toNat, hiByte sequenceNumber.toNat, loByte sequenceNumber.toNat]

/-- `icmp_send`, up to the call of `ip_send`: the memory at the packet and its size. -/
def icmpSend (identifier : UInt16) (type code : UInt8) (sequenceNumber : UInt16)
    (data : List UInt8) (heap : Nat → UInt8) : (Nat → UInt8) × Nat :=
  let size := icmpHeaderSize + data.length
  let packet := placed (icmpHeader type code 0 identifier sequenceNumber ++ data) heap
  (setIcmpChecksum packet (icmpChecksum packet size), size)

section Checksum

variable {packet packet' : Nat → UInt8} {len : Nat}

theorem icmpChecksum_eq (hlen : len ≤ 65535) :
    icmpChecksum packet len = wordChecksum ((List.range len).map packet) := by
  have hbytes : ((List.range len).map fun a => if a < len then packet a else 0) =
      (List.range len).map packet :=
    List.map_congr_left fun a ha => if_pos (List.mem_range.mp ha)
  have hwords : ((List.range ((len + 1) / 2)).map fun j => icmpWord packet len (2 * j)) =
      (List.range ((len + 1) / 2)).map fun j =>
        memWord (fun a => if a < len then packet a else 0) (2 * j) := by
    refine List.map_congr_left fun j hj => ?_
    have hlt : 2 * j < len := by
      have hj := List.mem_range.mp hj
      omega
    rw [icmpWord, memWord, if_pos hlt]
    by_cases hnext : 2 * j + 1 < len
    · rw [if_pos hnext, if_pos hnext]
    · rw [if_neg hnext, if_neg hnext]
      rfl
  have hsum : (byteWords ((List.range len).map packet)).sum < 2 ^ 31 + 2 ^ 20 :=
    byteWords_sum_lt (by simp; omega)
  have hzero : (if len % 2 = 0 then 0 else (if len < len then packet len else 0).toNat) = 0 := by
    rw [if_neg (Nat.lt_irrefl len)]
    split <;> rfl
  rw [icmpChecksum, hwords, memWords_sum, hbytes, hzero, Nat.add_zero, foldCarry_eq (by omega),
    wordChecksum_eq]
  rfl

theorem icmpChecksum_lt (packet : Nat → UInt8) (len : Nat) : icmpChecksum packet len < 2 ^ 16 := by
  rw [icmpChecksum]
  omega

theorem icmpChecksum_congr (hlen : len ≤ 65535) (hsame : ∀ a < len, packet' a = packet a) :
    icmpChecksum packet' len = icmpChecksum packet len := by
  rw [icmpChecksum_eq hlen, icmpChecksum_eq hlen,
    List.map_congr_left fun a ha => hsame a (List.mem_range.mp ha)]

@[simp] theorem setIcmpChecksum_twice (packet : Nat → UInt8) (c c' : Nat) :
    setIcmpChecksum (setIcmpChecksum packet c) c' = setIcmpChecksum packet c' := by
  funext a
  simp only [setIcmpChecksum, Function.update_apply]
  split
  · rfl
  split <;> rfl

theorem setIcmpChecksum_word {c : Nat} (hc : c < 2 ^ 16) :
    memWord (setIcmpChecksum packet c) 2 = c := by
  have hword : memWord (setIcmpChecksum packet c) 2 =
      (hiByte c).toNat * 256 + (loByte c).toNat := by
    simp [memWord, setIcmpChecksum]
  rw [hword, hiByte_loByte hc]

theorem icmpAccepted_sealed (packet : Nat → UInt8) (len : Nat) :
    IcmpAccepted (setIcmpChecksum packet (icmpChecksum (setIcmpChecksum packet 0) len)) len := by
  rw [IcmpAccepted, setIcmpChecksum_twice, setIcmpChecksum_word (icmpChecksum_lt _ _)]

/-- The test looks at the packet only, if that holds the checksum. -/
theorem icmpAccepted_congr (hlen : len ≤ 65535) (hfield : 4 ≤ len)
    (hsame : ∀ a < len, packet' a = packet a) :
    IcmpAccepted packet' len ↔ IcmpAccepted packet len := by
  have hzeroed : ∀ a < len, setIcmpChecksum packet' 0 a = setIcmpChecksum packet 0 a := by
    intro a ha
    simp only [setIcmpChecksum, Function.update_apply, hsame a ha]
  rw [IcmpAccepted, IcmpAccepted, icmpChecksum_congr hlen hzeroed, memWord, memWord,
    hsame 2 (by omega), hsame 3 (by omega)]

/-- One byte changed, and the packet does not pass. -/
theorem not_icmpAccepted_update (hlen : len ≤ 65535) (haccepted : IcmpAccepted packet len)
    {j : Nat} (hj : j < len) {b : UInt8} (hb : b ≠ packet j) :
    ¬IcmpAccepted (Function.update packet j b) len := by
  intro hupdated
  rw [IcmpAccepted] at haccepted hupdated
  have hne : b.toNat ≠ (packet j).toNat := fun h => hb (UInt8.toNat_inj.mp h)
  have hlt := b.toNat_lt
  have hlt' := (packet j).toNat_lt
  by_cases hfield : j = 2 ∨ j = 3
  · have hzeroed : setIcmpChecksum (Function.update packet j b) 0 = setIcmpChecksum packet 0 := by
      funext a
      simp only [setIcmpChecksum, Function.update_apply]
      split
      · rfl
      split
      · rfl
      rw [if_neg (by omega)]
    rw [hzeroed, ← haccepted] at hupdated
    simp only [memWord] at hupdated
    rcases hfield with rfl | rfl
    · rw [Function.update_self, Function.update_of_ne (by decide)] at hupdated
      omega
    · rw [Function.update_self, Function.update_of_ne (by decide)] at hupdated
      simp only [Nat.reduceAdd] at hupdated
      omega
  · rw [not_or] at hfield
    have hzeroed : ∀ b, setIcmpChecksum (Function.update packet j b) 0 =
        Function.update (setIcmpChecksum packet 0) j b := by
      intro b
      funext a
      simp only [setIcmpChecksum, Function.update_apply]
      by_cases haj : a = j
      · subst haj
        simp [hfield.1, hfield.2]
      · simp [haj]
    have hword : memWord (Function.update packet j b) 2 = memWord packet 2 := by
      rw [memWord, memWord, Function.update_of_ne (Ne.symm hfield.1),
        Function.update_of_ne (Ne.symm hfield.2)]
    obtain ⟨rest, hrest⟩ := byteWords_update (setIcmpChecksum packet 0) hj
    have hown := hrest (packet j)
    rw [← hzeroed, Function.update_eq_self] at hown
    rw [hword, haccepted, hzeroed, icmpChecksum_eq hlen, icmpChecksum_eq hlen, wordChecksum_eq,
      wordChecksum_eq, hown, hrest] at hupdated
    have hle := endAround_le (m := 65535) (by decide)
    have h1 := hle (rest + (packet j).toNat * byteWeight j)
    have h2 := hle (rest + b.toNat * byteWeight j)
    have hweight : byteWeight j = 256 ∨ byteWeight j = 1 := by
      rw [byteWeight]
      split
      · exact .inl rfl
      · exact .inr rfl
    have hinj := endAround_add_inj (m := 65535) (n := rest)
      (a := (packet j).toNat * byteWeight j) (b := b.toNat * byteWeight j)
      (by rcases hweight with h | h <;> rw [h] <;> omega)
      (by rcases hweight with h | h <;> rw [h] <;> omega)
    have heq := hinj.mp (by omega)
    rcases hweight with h | h <;> rw [h] at heq <;> omega

end Checksum

theorem icmpReceived_rejected {packet : Nat → UInt8} {len : Nat} (h : ¬IcmpAccepted packet len)
    (pinging : Int) (sender : IpAddr) :
    icmpReceived pinging packet sender len = ⟨pinging, setIcmpChecksum packet 0, none⟩ := by
  rw [icmpReceived, if_neg h]

/-- The header has no checksum when it is taken, so the packet is sealed. -/
theorem icmpAccepted_send {identifier sequenceNumber : UInt16} {type code : UInt8}
    {data : List UInt8} {heap packet : Nat → UInt8} {size : Nat}
    (hsent : icmpSend identifier type code sequenceNumber data heap = (packet, size)) :
    IcmpAccepted packet size ∧ size = icmpHeaderSize + data.length := by
  obtain ⟨rfl, rfl⟩ := Prod.mk.inj hsent
  have hblank : setIcmpChecksum
      (placed (icmpHeader type code 0 identifier sequenceNumber ++ data) heap) 0 =
        placed (icmpHeader type code 0 identifier sequenceNumber ++ data) heap := by
    funext a
    rcases a with _ | _ | _ | _ | a <;> rfl
  have hsealed := icmpAccepted_sealed
    (placed (icmpHeader type code 0 identifier sequenceNumber ++ data) heap)
    (icmpHeaderSize + data.length)
  rw [hblank] at hsealed
  exact ⟨hsealed, rfl⟩

/-- A packet with these arguments of `icmp_send` in it. -/
structure IcmpCarries (packet : Nat → UInt8) (type code : UInt8) (sequenceNumber : UInt16)
    (data : List UInt8) : Prop where
  type : packet 0 = type
  code : packet 1 = code
  sequenceNumber : memWord packet 6 = sequenceNumber.toNat
  data : ∀ a < data.length, packet (icmpHeaderSize + a) = data.getD a 0

theorem icmpSend_carries {identifier sequenceNumber : UInt16} {type code : UInt8}
    {data : List UInt8} {heap packet : Nat → UInt8} {size : Nat}
    (hsent : icmpSend identifier type code sequenceNumber data heap = (packet, size)) :
    IcmpCarries packet type code sequenceNumber data := by
  obtain ⟨rfl, rfl⟩ := Prod.mk.inj hsent
  refine ⟨rfl, rfl, hiByte_loByte sequenceNumber.toNat_lt, fun a ha => ?_⟩
  have hlength : icmpHeaderSize + a <
      (icmpHeader type code 0 identifier sequenceNumber ++ data).length := by
    rw [List.length_append]
    exact Nat.add_lt_add_left ha _
  unfold icmpHeaderSize at hlength ⊢
  rw [setIcmpChecksum, Function.update_of_ne (by omega), Function.update_of_ne (by omega),
    placed, if_pos hlength]
  refine (List.getD_append_right _ _ _ _ (Nat.le_add_right 8 a)).trans ?_
  exact congrArg (data.getD · 0) (Nat.add_sub_cancel_left 8 a)

def echoReply (request : Nat → UInt8) (len : Nat) : Nat → UInt8 :=
  let reply := setIcmpChecksum (Function.update request 0 icmpEchoReply) 0
  setIcmpChecksum reply (icmpChecksum reply len)

theorem icmpReceived_request {request : Nat → UInt8} {len : Nat}
    (haccepted : IcmpAccepted request len) (htype : request 0 = icmpEchoRequest)
    (pinging : Int) (sender : IpAddr) :
    icmpReceived pinging request sender len =
      ⟨pinging, echoReply request len,
        some (sender, (List.range len).map (echoReply request len))⟩ := by
  rw [icmpReceived, if_pos haccepted, if_pos htype]
  rfl

theorem echoReply_accepted (request : Nat → UInt8) (len : Nat) :
    IcmpAccepted (echoReply request len) len := by
  have hsealed := icmpAccepted_sealed (Function.update request 0 icmpEchoReply) len
  rw [echoReply, setIcmpChecksum_twice]
  exact hsealed

/-- A packet of `icmp_send` carries its arguments and passes the test, with any one byte
changed it does not, and the answer to an echo request that passes is that request with
another type and checksum, and passes. -/
theorem icmp_checksum_round_trip :
    (∀ (identifier sequenceNumber : UInt16) (type code : UInt8) (data : List UInt8)
        (heap packet : Nat → UInt8) (size : Nat), icmpHeaderSize + data.length ≤ 65535 →
      icmpSend identifier type code sequenceNumber data heap = (packet, size) →
      IcmpCarries packet type code sequenceNumber data ∧ size = icmpHeaderSize + data.length ∧
      (∀ received, (∀ a < size, received a = packet a) → IcmpAccepted received size) ∧
      ∀ j < size, ∀ b ≠ packet j, ∀ received,
        (∀ a < size, received a = Function.update packet j b a) →
        ¬IcmpAccepted received size ∧
        ∀ pinging sender, (icmpReceived pinging received sender size).reply = none ∧
          (icmpReceived pinging received sender size).pinging = pinging) ∧
    ∀ (pinging : Int) (request : Nat → UInt8) (sender : IpAddr) (len : Nat), len ≤ 65535 →
      IcmpAccepted request len → request 0 = icmpEchoRequest →
      ∃ reply, (icmpReceived pinging request sender len).reply =
          some (sender, (List.range len).map reply) ∧
        reply 0 = icmpEchoReply ∧ (∀ a, a ≠ 0 → a ≠ 2 → a ≠ 3 → reply a = request a) ∧
        IcmpAccepted reply len ∧
        (4 ≤ len → ∀ received, (∀ a < len, received a = reply a) →
          IcmpAccepted received len) := by
  constructor
  · intro identifier sequenceNumber type code data heap packet size hlen hsent
    obtain ⟨haccepted, hsize⟩ := icmpAccepted_send hsent
    have hfield : 4 ≤ size := by
      unfold icmpHeaderSize at hsize
      omega
    rw [← hsize] at hlen
    refine ⟨icmpSend_carries hsent, hsize,
      fun received hsame => (icmpAccepted_congr hlen hfield hsame).mpr haccepted, ?_⟩
    intro j hj b hb received hsame
    have hrejected : ¬IcmpAccepted received size := fun h =>
      not_icmpAccepted_update hlen haccepted hj hb ((icmpAccepted_congr hlen hfield hsame).mp h)
    refine ⟨hrejected, fun pinging sender => ?_⟩
    rw [icmpReceived_rejected hrejected]
    exact ⟨rfl, rfl⟩
  · intro pinging request sender len hlen haccepted htype
    refine ⟨echoReply request len, ?_, rfl, ?_, echoReply_accepted request len, ?_⟩
    · rw [icmpReceived_request haccepted htype]
    · intro a htypeByte hhigh hlow
      simp only [echoReply, setIcmpChecksum, Function.update_of_ne hlow,
        Function.update_of_ne hhigh, Function.update_of_ne htypeByte]
    · intro hfield received hsame
      exact (icmpAccepted_congr hlen hfield hsame).mpr (echoReply_accepted request len)

/-- A ping with one byte of data, in the memory where it was built. -/
theorem icmp_checksum_round_trip_ping :
    IcmpAccepted (icmpSend 1 icmpEchoRequest 0 0 [97] fun _ => 7).1 9 :=
  (icmp_checksum_round_trip.1 1 0 icmpEchoRequest 0 [97] (fun _ => 7) _ 9 (by decide)
    rfl).2.2.1 _ fun _ _ => rfl

end GlitchedOS
