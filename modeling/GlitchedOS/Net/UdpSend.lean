/-
What `udp_send` puts into a packet and what `udp_received` checks.  The checksum is taken
over whole words, so for an odd length it takes in the byte that lies behind the packet; it
is the checksum of the datagram where that byte is zero.
-/
import GlitchedOS.Net.Arp
import GlitchedOS.Net.Checksum

namespace GlitchedOS

def udpMaxDataSize : Nat := 1472

/-- `udp_header_t` as it lies in memory. -/
def udpHeader (srcPort destPort : UInt16) (length checksum : Nat) : List UInt8 :=
  [hiByte srcPort.toNat, loByte srcPort.toNat, hiByte destPort.toNat, loByte destPort.toNat,
    hiByte length, loByte length, hiByte checksum, loByte checksum]

/-- `udp_send` from the address `ip`, up to the call of `ip_send`: the memory at the packet
and its size, or the error. -/
def udpSend (ip dest : IpAddr) (srcPort destPort : UInt16) (data : List UInt8)
    (heap : Nat → UInt8) : Except Int ((Nat → UInt8) × Nat) :=
  if udpMaxDataSize < data.length then .error eMsgsize
  else
    let size := udpHeaderSize + data.length
    let packet := placed (udpHeader srcPort destPort size 0 ++ data) heap
    let checksum := udpChecksum ip dest packet size
    .ok (placed (udpHeader srcPort destPort size checksum ++ data) heap, size)

/-- The checks of `udp_received`. -/
structure UdpAccepted (packet : Nat → UInt8) (sender dest : IpAddr) (len : Nat) : Prop where
  header : udpHeaderSize ≤ len
  length : memWord packet 4 = len
  checksum : memWord packet 6 = udpChecksum sender dest (zeroChecksum packet) len

/-- A packet for an open port is stored in the first free entry if it passes the checks. -/
theorem receiveSlot_iff {n : Net} {packet : Nat → UInt8} {sender dest : IpAddr} {len i : Nat}
    (hopen : n.portsOpen (UInt16.ofNat (memWord packet 2)) = true)
    (hfree : ((List.range udpBufferSize).find? fun i => n.lengthAt i = 0) = some i) :
    n.receiveSlot packet sender dest len = some i ↔ UdpAccepted packet sender dest len := by
  rw [Net.receiveSlot, if_pos hopen]
  split
  · rename_i hshort
    exact iff_of_false (fun h => by cases h) fun h => by
      have hheader := h.header
      omega
  rename_i hheader
  split
  · rename_i hne
    exact iff_of_false (fun h => by cases h) fun h => hne (by rw [h.length])
  rename_i hlength
  split
  · rename_i hne
    exact iff_of_false (fun h => by cases h) fun h => hne h.checksum
  rename_i hchecksum
  exact iff_of_true hfree ⟨by omega, by omega, not_not.mp hchecksum⟩

def pseudoHeader (src dst : IpAddr) (len : Nat) : List UInt8 :=
  [src.b0, src.b1, src.b2, src.b3, dst.b0, dst.b1, dst.b2, dst.b3, 0, 17, hiByte len, loByte len]

section Checksum

variable {src dst : IpAddr} {packet packet' : Nat → UInt8} {len : Nat}

/-- The words of the pseudo-header and of the datagram, added. -/
def udpSum (src dst : IpAddr) (packet : Nat → UInt8) (len : Nat) : Nat :=
  src.words + dst.words + 17 + len + (byteWords ((List.range len).map packet)).sum

theorem udpSum_lt (hlen : len ≤ 65535) : udpSum src dst packet len + 255 < 2 ^ 32 := by
  have hbyte : ∀ b : UInt8, b.toNat < 256 := UInt8.toNat_lt
  have hsum : (byteWords ((List.range len).map packet)).sum < 2 ^ 31 + 2 ^ 20 :=
    byteWords_sum_lt (by simp; omega)
  have h0 := hbyte src.b0
  have h1 := hbyte src.b1
  have h2 := hbyte src.b2
  have h3 := hbyte src.b3
  have h4 := hbyte dst.b0
  have h5 := hbyte dst.b1
  have h6 := hbyte dst.b2
  have h7 := hbyte dst.b3
  rw [udpSum, IpAddr.words, IpAddr.words]
  omega

theorem udpChecksum_eq (hlen : len ≤ 65535) :
    udpChecksum src dst packet len = 65535 - endAround 65535
      (udpSum src dst packet len + if len % 2 = 0 then 0 else (packet len).toNat) := by
  have hlt : udpSum src dst packet len + 255 < 2 ^ 32 := udpSum_lt hlen
  have hbyte := (packet len).toNat_lt
  rw [udpChecksum, memWords_sum, Nat.mod_eq_of_lt (by omega), ← Nat.add_assoc]
  rw [foldCarry_eq]
  · rfl
  · change udpSum src dst packet len + _ < _
    split <;> omega

theorem wordChecksum_datagram (hlen : len ≤ 65535) :
    wordChecksum (pseudoHeader src dst len ++ (List.range len).map packet) =
      65535 - endAround 65535 (udpSum src dst packet len) := by
  have hwords : (byteWords (pseudoHeader src dst len ++ (List.range len).map packet)).sum =
      udpSum src dst packet len := by
    rw [byteWords_append (by simp [pseudoHeader]), List.sum_append, udpSum]
    simp only [pseudoHeader, byteWords, List.sum_cons, List.sum_nil, IpAddr.words,
      hiByte_loByte (show len < 2 ^ 16 by omega), show (0 : UInt8).toNat = 0 from rfl,
      show (17 : UInt8).toNat = 17 from rfl]
    omega
  rw [wordChecksum_eq, hwords]

/-- Two checksums of the same bytes are the same exactly when they take in the same byte. -/
theorem udpChecksum_congr (hlen : len ≤ 65535) (hsame : ∀ a < len, packet' a = packet a) :
    udpChecksum src dst packet' len = udpChecksum src dst packet len ↔
      (len % 2 = 0 ∨ packet' len = packet len) := by
  have hsum : udpSum src dst packet' len = udpSum src dst packet len := by
    rw [udpSum, udpSum, List.map_congr_left fun a ha => hsame a (List.mem_range.mp ha)]
  have hle := endAround_le (m := 65535) (by decide)
  have hbyte := (packet len).toNat_lt
  have hbyte' := (packet' len).toNat_lt
  rw [udpChecksum_eq hlen, udpChecksum_eq hlen, hsum]
  by_cases heven : len % 2 = 0
  · simp [heven]
  · rw [if_neg heven, if_neg heven]
    have hinj := endAround_add_inj (m := 65535) (n := udpSum src dst packet len)
      (a := (packet' len).toNat) (b := (packet len).toNat) (by omega) (by omega)
    rw [← UInt8.toNat_inj, ← hinj]
    have h1 := hle (udpSum src dst packet len + (packet' len).toNat)
    have h2 := hle (udpSum src dst packet len + (packet len).toNat)
    omega

end Checksum

section Datagram

variable {src dst : IpAddr} {srcPort destPort : UInt16} {size checksum : Nat}
  {data : List UInt8} {heap received : Nat → UInt8}

/-- Outside of its field the checksum makes no difference to a packet. -/
theorem placed_checksum {a : Nat} (hhigh : a ≠ 6) (hlow : a ≠ 7) :
    placed (udpHeader srcPort destPort size checksum ++ data) heap a =
      placed (udpHeader srcPort destPort size 0 ++ data) heap a := by
  rcases a with _ | _ | _ | _ | _ | _ | _ | _ | a
  case succ.succ.succ.succ.succ.succ.zero => exact absurd rfl hhigh
  case succ.succ.succ.succ.succ.succ.succ.zero => exact absurd rfl hlow
  all_goals rfl

theorem placed_header {a : Nat} (ha : a < udpHeaderSize) :
    placed (udpHeader srcPort destPort size checksum ++ data) heap a =
      (udpHeader srcPort destPort size checksum).getD a 0 := by
  have hlength : (udpHeader srcPort destPort size checksum).length = udpHeaderSize := rfl
  rw [placed, if_pos (by rw [List.length_append, hlength]; omega),
    List.getD_append _ _ _ _ (by rw [hlength]; exact ha)]

/-- A received packet with its checksum taken out is the packet it was taken over. -/
theorem zeroChecksum_received {len : Nat} (hreceived : ∀ a < len, received a =
    placed (udpHeader srcPort destPort size checksum ++ data) heap a) {a : Nat}
    (ha : a < len) : zeroChecksum received a =
      placed (udpHeader srcPort destPort size 0 ++ data) heap a := by
  rw [zeroChecksum]
  by_cases hfield : a = 6 ∨ a = 7
  · rw [if_pos hfield]
    rcases hfield with rfl | rfl <;> rw [placed_header (by decide)] <;> rfl
  · rw [if_neg hfield, hreceived a ha]
    rw [not_or] at hfield
    exact placed_checksum hfield.1 hfield.2

/-- A datagram that arrives as it was sent is stored for its port exactly when the two
checksums take in the same byte. -/
theorem receiveSlot_sent_iff {n : Net} {i : Nat} {sent : Nat → UInt8}
    (hsent : udpSend src dst srcPort destPort data heap = .ok (sent, size))
    (hreceived : ∀ a < size, received a = sent a) (hopen : n.portsOpen destPort = true)
    (hfree : ((List.range udpBufferSize).find? fun i => n.lengthAt i = 0) = some i) :
    n.receiveSlot received src dst size = some i ↔
      (data.length % 2 = 0 ∨ received size = sent size) := by
  rw [udpSend] at hsent
  split at hsent
  · cases hsent
  rename_i hfits
  obtain ⟨rfl, rfl⟩ := Prod.mk.inj (Except.ok.inj hsent)
  have hlen : udpHeaderSize + data.length ≤ 65535 := by
    unfold udpMaxDataSize at hfits
    unfold udpHeaderSize
    omega
  obtain ⟨checksum, hchecksum⟩ : ∃ c, c = udpChecksum src dst (placed
      (udpHeader srcPort destPort (udpHeaderSize + data.length) 0 ++ data) heap)
        (udpHeaderSize + data.length) := ⟨_, rfl⟩
  rw [← hchecksum] at hreceived ⊢
  have hword : checksum < 2 ^ 16 := by
    rw [hchecksum, udpChecksum_eq hlen]
    omega
  have hbyte : ∀ a < udpHeaderSize, received a =
      (udpHeader srcPort destPort (udpHeaderSize + data.length) checksum).getD a 0 :=
    fun a ha => (hreceived a (by omega)).trans (placed_header ha)
  have hlength : memWord received 4 = udpHeaderSize + data.length := by
    rw [memWord, hbyte 4 (by decide), hbyte 5 (by decide)]
    exact hiByte_loByte (by omega)
  have hport : UInt16.ofNat (memWord received 2) = destPort := by
    rw [memWord, hbyte 2 (by decide), hbyte 3 (by decide)]
    refine (congrArg UInt16.ofNat (hiByte_loByte destPort.toNat_lt)).trans ?_
    exact UInt16.ofNat_toNat
  have hfield : memWord received 6 = checksum := by
    rw [memWord, hbyte 6 (by decide), hbyte 7 (by decide)]
    exact hiByte_loByte hword
  have htest : UdpAccepted received src dst (udpHeaderSize + data.length) ↔
      udpChecksum src dst (zeroChecksum received) (udpHeaderSize + data.length) = checksum :=
    ⟨fun h => (hfield.symm.trans h.checksum).symm,
      fun h => ⟨by omega, hlength, hfield.trans h.symm⟩⟩
  have hbehind : ∀ a, udpHeaderSize ≤ a → zeroChecksum received a = received a := by
    intro a ha
    unfold udpHeaderSize at ha
    exact if_neg (by omega)
  have hheap : ∀ c, placed (udpHeader srcPort destPort (udpHeaderSize + data.length) c ++ data)
      heap (udpHeaderSize + data.length) = heap (udpHeaderSize + data.length) := by
    intro c
    refine if_neg ?_
    rw [List.length_append]
    exact Nat.lt_irrefl _
  rw [receiveSlot_iff (by rw [hport]; exact hopen) hfree]
  rw [htest, hchecksum, udpChecksum_congr hlen fun a ha => zeroChecksum_received hreceived ha,
    hbehind _ (by omega), hheap, hheap]
  have heven : (udpHeaderSize + data.length) % 2 = 0 ↔ data.length % 2 = 0 := by
    unfold udpHeaderSize
    omega
  rw [heven]

end Datagram

/-- `udp_checksum` is the checksum of the datagram exactly when the length is even or the
byte behind it is zero; and `udp_received` stores a datagram for an open port as it was sent
exactly when the length is even or the same byte lies behind it at both ends. -/
theorem udp_checksum_rfc_iff (src dst : IpAddr) (packet : Nat → UInt8) {len : Nat}
    (hlen : len ≤ 65535) :
    (udpChecksum src dst packet len =
        wordChecksum (pseudoHeader src dst len ++ (List.range len).map packet) ↔
      (len % 2 = 0 ∨ packet len = 0)) ∧
    ∀ {srcPort destPort : UInt16} {data : List UInt8} {heap sent received : Nat → UInt8}
      {size i : Nat} {n : Net},
      udpSend src dst srcPort destPort data heap = .ok (sent, size) →
      (∀ a < size, received a = sent a) → n.portsOpen destPort = true →
      ((List.range udpBufferSize).find? fun i => n.lengthAt i = 0) = some i →
      (n.receiveSlot received src dst size = some i ↔
        (data.length % 2 = 0 ∨ received size = sent size)) := by
  refine ⟨?_, fun hsent hreceived hopen hfree =>
    receiveSlot_sent_iff hsent hreceived hopen hfree⟩
  rw [udpChecksum_eq hlen, wordChecksum_datagram hlen]
  have hle := endAround_le (m := 65535) (by decide)
  have hbyte := (packet len).toNat_lt
  by_cases heven : len % 2 = 0
  · simp [heven]
  · rw [if_neg heven]
    have hinj := endAround_add_inj (m := 65535) (n := udpSum src dst packet len)
      (a := (packet len).toNat) (b := 0) (by omega) (by decide)
    rw [← UInt8.toNat_inj, show (0 : UInt8).toNat = 0 from rfl, ← hinj, Nat.add_zero]
    have h1 := hle (udpSum src dst packet len + (packet len).toNat)
    have h2 := hle (udpSum src dst packet len)
    omega

/-- One byte of data with a zero behind it, which is sent and stored. -/
theorem udp_checksum_rfc_iff_padded :
    udpChecksum ⟨10, 0, 0, 1⟩ ⟨10, 0, 0, 2⟩ (placed (udpHeader 7 9 9 0 ++ [65]) fun _ => 0) 9 =
        wordChecksum (pseudoHeader ⟨10, 0, 0, 1⟩ ⟨10, 0, 0, 2⟩ 9 ++
          (List.range 9).map (placed (udpHeader 7 9 9 0 ++ [65]) fun _ => 0)) ∧
      ∃ sent, udpSend ⟨10, 0, 0, 1⟩ ⟨10, 0, 0, 2⟩ 7 9 [65] (fun _ => 0) = .ok (sent, 9) ∧
        { zeroNet with portsOpen := fun _ => true }.receiveSlot sent ⟨10, 0, 0, 1⟩
          ⟨10, 0, 0, 2⟩ 9 = some 0 := by
  obtain ⟨hchecksum, hstored⟩ := udp_checksum_rfc_iff ⟨10, 0, 0, 1⟩ ⟨10, 0, 0, 2⟩
    (placed (udpHeader 7 9 9 0 ++ [65]) fun _ => 0) (show 9 ≤ 65535 by decide)
  obtain ⟨sent, hsent⟩ : ∃ sent, udpSend ⟨10, 0, 0, 1⟩ ⟨10, 0, 0, 2⟩ 7 9 [65] (fun _ => 0) =
      .ok (sent, 9) := ⟨_, rfl⟩
  have hfree : ((List.range udpBufferSize).find? fun i =>
      { zeroNet with portsOpen := fun _ => true }.lengthAt i = 0) = some 0 := by decide +kernel
  exact ⟨hchecksum.mpr (.inr rfl), sent, hsent,
    (hstored hsent (fun _ _ => rfl) rfl hfree).mpr (.inr rfl)⟩

/-- A datagram with one byte of data, sent while a one lies behind it. -/
def oddDatagram : List UInt8 := [0, 7, 0, 9, 0, 9, 0xAA, 0xC8, 65]

/-- Its checksum is not that of its bytes, and with a zero behind it it is dropped. -/
theorem udp_checksum_reads_behind :
    udpSend ⟨10, 0, 0, 1⟩ ⟨10, 0, 0, 2⟩ 7 9 [65] (fun _ => 1) =
        .ok (placed oddDatagram fun _ => 1, 9) ∧
      udpChecksum ⟨10, 0, 0, 1⟩ ⟨10, 0, 0, 2⟩ (zeroChecksum (placed oddDatagram fun _ => 1)) 9 ≠
        wordChecksum (pseudoHeader ⟨10, 0, 0, 1⟩ ⟨10, 0, 0, 2⟩ 9 ++
          (List.range 9).map (zeroChecksum (placed oddDatagram fun _ => 1))) ∧
      (∀ a < 9, placed oddDatagram (fun _ => 0) a = placed oddDatagram (fun _ => 1) a) ∧
      ¬UdpAccepted (placed oddDatagram fun _ => 0) ⟨10, 0, 0, 1⟩ ⟨10, 0, 0, 2⟩ 9 := by
  refine ⟨?_, by decide, fun a ha => ?_, fun h => ?_⟩
  · have hchecksum : udpChecksum ⟨10, 0, 0, 1⟩ ⟨10, 0, 0, 2⟩
        (placed (udpHeader 7 9 9 0 ++ [65]) fun _ => 1) 9 = 0xAAC8 := by decide
    exact congrArg (fun c => Except.ok (placed (udpHeader 7 9 9 c ++ [65]) fun _ => 1, 9))
      hchecksum
  · have hlength : a < oddDatagram.length := ha
    rw [placed, placed, if_pos hlength, if_pos hlength]
  · have hne : memWord (placed oddDatagram fun _ => 0) 6 ≠ udpChecksum ⟨10, 0, 0, 1⟩
        ⟨10, 0, 0, 2⟩ (zeroChecksum (placed oddDatagram fun _ => 0)) 9 := by decide
    exact hne h.checksum

end GlitchedOS
