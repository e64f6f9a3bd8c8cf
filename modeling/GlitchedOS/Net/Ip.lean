/-
IP fragmentation and reassembly: `ip_send` cuts a payload into packets and
`ip_received` puts them together again.  Packets are lists of bytes.  The route,
the answer of ARP and the driver's answer to each packet are given.
-/
import Mathlib.Data.List.Basic
import Mathlib.Data.List.GetD
import Mathlib.Data.Nat.Bitwise

namespace GlitchedOS

structure IpAddr where
  b0 : UInt8
  b1 : UInt8
  b2 : UInt8
  b3 : UInt8
deriving Repr, DecidableEq

def ipBroadcastAddr : IpAddr := ⟨255, 255, 255, 255⟩

def ipProtoIcmp : Nat := 1
def ipProtoUdp : Nat := 17
def ipHeaderLen : Nat := 20
def ipDefaultTtl : Nat := 128
def ipFlagDf : Nat := 0x4000
def ipFlagMf : Nat := 0x2000

/-- The high and low byte of a 16-bit number in network order. -/
def hiByte (n : Nat) : UInt8 := UInt8.ofNat (n / 256)
def loByte (n : Nat) : UInt8 := UInt8.ofNat n

/-- The 16-bit number in network order at `offset`. -/
def wordAt (frame : List UInt8) (offset : Nat) : Nat :=
  (frame.getD offset 0).toNat * 256 + (frame.getD (offset + 1) 0).toNat

/-- `ipv4_header_t` as it lies in memory. -/
def ipHeader (totalLength identification flagsOffset protocol checksum : Nat)
    (src dst : IpAddr) : List UInt8 :=
  [0x45, 0, hiByte totalLength, loByte totalLength, hiByte identification,
    loByte identification, hiByte flagsOffset, loByte flagsOffset,
    UInt8.ofNat ipDefaultTtl, UInt8.ofNat protocol, hiByte checksum,
    loByte checksum, src.b0, src.b1, src.b2, src.b3, dst.b0, dst.b1, dst.b2,
    dst.b3]

/-- The loop that adds the carries of a sum of 16-bit numbers. -/
def foldCarry : Nat → Nat → Nat
  | 0, sum => sum
  | n + 1, sum =>
    if sum / 2 ^ 16 = 0 then sum else foldCarry n (sum % 2 ^ 16 + sum / 2 ^ 16)

/-- The checksum of the first `words` words.  A sum of at most thirty words is
folded after two rounds. -/
def ipChecksum (frame : List UInt8) (words : Nat) : Nat :=
  2 ^ 16 - 1 -
    foldCarry 4 ((List.range words).map fun i => wordAt frame (2 * i)).sum

def sealedHeader (totalLength identification flagsOffset protocol : Nat)
    (src dst : IpAddr) : List UInt8 :=
  ipHeader totalLength identification flagsOffset protocol
    (ipChecksum (ipHeader totalLength identification flagsOffset protocol 0 src
      dst) (ipHeaderLen / 2)) src dst

/-- The fragment of `payload` from byte `i` on. -/
def fragmentPacket (src dst : IpAddr) (protocol identification : Nat)
    (payload : List UInt8) (i : Nat) : List UInt8 :=
  let fragmentSize :=
    if 1480 < payload.length - i then 1480 else payload.length - i
  let more := if i + fragmentSize < payload.length then ipFlagMf else 0
  sealedHeader (ipHeaderLen + fragmentSize) identification (i / 8 ||| more)
    protocol src dst ++ (payload.drop i).take fragmentSize

/-- The fragmentation loop, whose counter is a `uint16_t`: the packets given to
the driver, up to one it refuses.  `none` when the rounds do not suffice. -/
def fragmentLoop (send : List UInt8 → Int) (src dst : IpAddr)
    (protocol identification : Nat) (payload : List UInt8) :
    Nat → Nat → Option (List (List UInt8) × Int)
  | 0, _ => none
  | n + 1, i =>
    if i < payload.length then
      let packet := fragmentPacket src dst protocol identification payload i
      if send packet < 0 then some ([packet], send packet)
      else do
        let (packets, res) ← fragmentLoop send src dst protocol identification
          payload n ((i + 1480) % 2 ^ 16)
        some (packet :: packets, res)
    else some ([], 0)

/-- `ip_send` once the route and the MAC address are known: the packets given to
the driver and the result. -/
def ipSend (send : List UInt8 → Int) (src dst : IpAddr)
    (protocol identification : Nat) (payload : List UInt8) (rounds : Nat) :
    Option (List (List UInt8) × Int) :=
  if 1500 < payload.length then
    fragmentLoop send src dst protocol identification payload rounds 0
  else
    let packet := sealedHeader (ipHeaderLen + payload.length) identification
      ipFlagDf protocol src dst ++ payload
    some ([packet], send packet)

/-! ### Receiving -/

/-- `fragment_storage`, whose rows of `0xFFFF` bytes lie one after the other, and
`ids`. -/
structure Reassembly where
  fragmentStorage : Nat → UInt8
  ids : Nat → Nat

/-- What a protocol handler is called with: the memory at its pointer and the
length. -/
structure Datagram where
  protocol : Nat
  payload : Nat → UInt8
  payloadLength : Int

def fragmentRow : Nat := 0xFFFF

/-- The first slot of the twelve, from `i` on, that is free or has this
identification. -/
def findSlot (ids : Nat → Nat) (identification : Nat) : Nat → Nat → Option Nat
  | 0, _ => none
  | n + 1, i =>
    if ids i = identification ∨ ids i = 0 then some i
    else findSlot ids identification n (i + 1)

/-- `memcpy` of `n` bytes to the storage. -/
def storeFragment (storage : Nat → UInt8) (offset : Nat) (src : List UInt8)
    (n : Nat) : Nat → UInt8 := fun a =>
  if offset ≤ a ∧ a < offset + n then src.getD (a - offset) 0 else storage a

def dispatch (protocol : Nat) (payload : Nat → UInt8) (payloadLength : Int) :
    Option Datagram :=
  if protocol = ipProtoIcmp ∨ protocol = ipProtoUdp then
    some ⟨protocol, payload, payloadLength⟩
  else none

/-- `ip_received` from the payload on. -/
def receivePayload (s : Reassembly) (frame : List UInt8) (headerLength : Nat) :
    Option Datagram × Reassembly :=
  let payloadLength : Int := (wordAt frame 2 : Int) - headerLength
  let payload := frame.drop headerLength
  let direct := dispatch (frame.getD 9 0).toNat (fun a => payload.getD a 0)
    payloadLength
  let flagsOffset := wordAt frame 6
  if flagsOffset &&& ipFlagDf ≠ 0 then (direct, s)
  else match findSlot s.ids (wordAt frame 4) 12 0 with
  | none => (direct, s)
  | some i =>
    let storage := storeFragment s.fragmentStorage
      (i * fragmentRow + (flagsOffset &&& 0x1FFF) * 8) payload payloadLength.toNat
    if flagsOffset &&& ipFlagMf = 0 then
      (dispatch (frame.getD 9 0).toNat (fun a => storage (i * fragmentRow + a))
          payloadLength,
        ⟨storage, Function.update s.ids i 0⟩)
    else (none, ⟨storage, Function.update s.ids i (wordAt frame 4)⟩)

/-- `ip_received` on a card with address `ip`. -/
def ipReceived (ip : IpAddr) (s : Reassembly) (frame : List UInt8) :
    Option Datagram × Reassembly :=
  let versionIhl := (frame.getD 0 0).toNat
  let ihl := versionIhl % 16
  let dst : IpAddr :=
    ⟨frame.getD 16 0, frame.getD 17 0, frame.getD 18 0, frame.getD 19 0⟩
  if versionIhl / 16 ≠ 4 ∨ ihl < 5 then (none, s)
  else if dst ≠ ip ∧ dst ≠ ipBroadcastAddr then (none, s)
  else if wordAt frame 10 ≠
      ipChecksum ((frame.set 10 0).set 11 0) (ihl * 2) then (none, s)
  else receivePayload s frame (ihl * 4)

/-- Packets received in order: the datagrams handed on. -/
def receiveAll (ip : IpAddr) : Reassembly → List (List UInt8) →
    List Datagram × Reassembly
  | s, [] => ([], s)
  | s, frame :: rest =>
    let (datagram, s) := ipReceived ip s frame
    let (datagrams, s) := receiveAll ip s rest
    (datagram.toList ++ datagrams, s)

/-! ### One packet -/

theorem hiByte_loByte {n : Nat} (h : n < 2 ^ 16) :
    (hiByte n).toNat * 256 + (loByte n).toNat = n := by
  rw [hiByte, loByte, UInt8.toNat_ofNat', UInt8.toNat_ofNat']
  omega

theorem wordAt_append {header data : List UInt8} {offset : Nat}
    (h : offset + 1 < header.length) :
    wordAt (header ++ data) offset = wordAt header offset := by
  rw [wordAt, wordAt, List.getD_append _ _ _ _ (by omega),
    List.getD_append _ _ _ _ h]

theorem dispatch_length {protocol : Nat} {bytes : Nat → UInt8} {n : Int}
    {d : Datagram} (h : dispatch protocol bytes n = some d) :
    d.payloadLength = n := by
  rw [dispatch] at h
  split at h
  · rw [← Option.some.inj h]
  · cases h

theorem receivePayload_length {s : Reassembly} {frame : List UInt8}
    {headerLength : Nat} {d : Datagram}
    (h : (receivePayload s frame headerLength).1 = some d) :
    d.payloadLength = (wordAt frame 2 : Int) - headerLength := by
  rw [receivePayload] at h
  dsimp only at h
  split at h
  · exact dispatch_length h
  split at h
  · exact dispatch_length h
  split at h
  · exact dispatch_length h
  · cases h

section Header

variable (totalLength identification flagsOffset protocol checksum : Nat)
  (src dst : IpAddr) (data : List UInt8)

theorem ipChecksum_header :
    ipChecksum (ipHeader totalLength identification flagsOffset protocol checksum
        src dst ++ data) 10 =
      ipChecksum (ipHeader totalLength identification flagsOffset protocol
        checksum src dst) 10 := by
  have hwords : ((List.range 10).map fun i => wordAt (ipHeader totalLength
      identification flagsOffset protocol checksum src dst ++ data) (2 * i)) =
        (List.range 10).map fun i => wordAt (ipHeader totalLength identification
          flagsOffset protocol checksum src dst) (2 * i) := by
    refine List.map_congr_left fun i hi => ?_
    have hlt := List.mem_range.mp hi
    exact wordAt_append (show 2 * i + 1 < 20 by omega)
  rw [ipChecksum, hwords, ipChecksum]

theorem ipHeader_zeroed :
    ((ipHeader totalLength identification flagsOffset protocol checksum src dst ++
        data).set 10 0).set 11 0 =
      ipHeader totalLength identification flagsOffset protocol 0 src dst ++
        data := rfl

theorem ipHeader_drop :
    (ipHeader totalLength identification flagsOffset protocol checksum src dst ++
      data).drop 20 = data := rfl

theorem ipChecksum_lt (frame : List UInt8) (words : Nat) :
    ipChecksum frame words < 2 ^ 16 := by
  rw [ipChecksum]
  omega

/-- A packet with a sealed header reaches the payload of the host it is for. -/
theorem ipReceived_sealed (s : Reassembly) {ip : IpAddr}
    (hdst : dst = ip ∨ dst = ipBroadcastAddr) :
    ipReceived ip s (sealedHeader totalLength identification flagsOffset protocol
        src dst ++ data) =
      receivePayload s (sealedHeader totalLength identification flagsOffset
        protocol src dst ++ data) 20 := by
  have hsum : wordAt (sealedHeader totalLength identification flagsOffset protocol
      src dst ++ data) 10 = ipChecksum (ipHeader totalLength identification
        flagsOffset protocol 0 src dst) (ipHeaderLen / 2) :=
    hiByte_loByte (ipChecksum_lt _ _)
  have hfirst : ((sealedHeader totalLength identification flagsOffset protocol
      src dst ++ data).getD 0 0).toNat = 0x45 := rfl
  have haddr : IpAddr.mk
      ((sealedHeader totalLength identification flagsOffset protocol src dst ++
        data).getD 16 0)
      ((sealedHeader totalLength identification flagsOffset protocol src dst ++
        data).getD 17 0)
      ((sealedHeader totalLength identification flagsOffset protocol src dst ++
        data).getD 18 0)
      ((sealedHeader totalLength identification flagsOffset protocol src dst ++
        data).getD 19 0) = dst := rfl
  have hcheck : ipChecksum (((sealedHeader totalLength identification flagsOffset
      protocol src dst ++ data).set 10 0).set 11 0) (0x45 % 16 * 2) =
        ipChecksum (ipHeader totalLength identification flagsOffset protocol 0 src
          dst) (ipHeaderLen / 2) := by
    rw [sealedHeader, ipHeader_zeroed]
    exact ipChecksum_header _ _ _ _ _ _ _ _
  rw [ipReceived, hfirst, haddr, hcheck, hsum, if_neg (by decide),
    if_neg fun h => hdst.elim h.1 h.2, if_neg fun h => h rfl]

theorem wordAt_totalLength (h : totalLength < 2 ^ 16) :
    wordAt (sealedHeader totalLength identification flagsOffset protocol src dst ++
      data) 2 = totalLength := hiByte_loByte h

theorem wordAt_identification (h : identification < 2 ^ 16) :
    wordAt (sealedHeader totalLength identification flagsOffset protocol src dst ++
      data) 4 = identification := hiByte_loByte h

theorem wordAt_flagsOffset (h : flagsOffset < 2 ^ 16) :
    wordAt (sealedHeader totalLength identification flagsOffset protocol src dst ++
      data) 6 = flagsOffset := hiByte_loByte h

theorem getD_protocol (h : protocol < 2 ^ 8) :
    ((sealedHeader totalLength identification flagsOffset protocol src dst ++
      data).getD 9 0).toNat = protocol := by
  refine (UInt8.toNat_ofNat' (n := protocol)).trans ?_
  exact Nat.mod_eq_of_lt h

theorem ipReceived_sealed_length {s : Reassembly} {ip : IpAddr} {d : Datagram}
    (h : (ipReceived ip s (sealedHeader totalLength identification flagsOffset
      protocol src dst ++ data)).1 = some d) :
    d.payloadLength = (wordAt (sealedHeader totalLength identification flagsOffset
      protocol src dst ++ data) 2 : Int) - (20 : Nat) := by
  have hfirst : ((sealedHeader totalLength identification flagsOffset protocol
      src dst ++ data).getD 0 0).toNat = 0x45 := rfl
  rw [ipReceived, hfirst] at h
  split at h
  · cases h
  split at h
  · cases h
  split at h
  · cases h
  · exact receivePayload_length h

end Header

/-! ### One fragment -/

/-- The number of bytes of the fragment from byte `i` on. -/
def fragmentSize (payload : List UInt8) (i : Nat) : Nat :=
  min 1480 (payload.length - i)

theorem fragmentPacket_eq (src dst : IpAddr) (protocol identification : Nat)
    (payload : List UInt8) (i : Nat) :
    fragmentPacket src dst protocol identification payload i =
      sealedHeader (ipHeaderLen + fragmentSize payload i) identification
        (i / 8 ||| if i + 1480 < payload.length then ipFlagMf else 0) protocol src
        dst ++ (payload.drop i).take (fragmentSize payload i) := by
  have hsize : (if 1480 < payload.length - i then 1480
      else payload.length - i) = fragmentSize payload i := by
    rw [fragmentSize]
    split <;> omega
  have hmore : i + fragmentSize payload i < payload.length ↔
      i + 1480 < payload.length := by
    rw [fragmentSize]
    omega
  rw [fragmentPacket, hsize]
  simp only [hmore]

theorem flagsOffset_spec {offset : Nat} (h : offset < 2 ^ 13) (more : Prop)
    [Decidable more] :
    (offset ||| if more then ipFlagMf else 0) < 2 ^ 16 ∧
      (offset ||| if more then ipFlagMf else 0) &&& ipFlagDf = 0 ∧
      (offset ||| if more then ipFlagMf else 0) &&& 0x1FFF = offset ∧
      ((offset ||| if more then ipFlagMf else 0) &&& ipFlagMf = 0 ↔ ¬more) := by
  have hmod : ∀ n, n &&& 0x1FFF = n % 2 ^ 13 := fun n =>
    Nat.and_two_pow_sub_one_eq_mod n 13
  have hbit : ∀ n, n < 2 ^ 14 → n &&& ipFlagDf = 0 := fun n hn => by
    rw [show ipFlagDf = 2 ^ 14 from rfl, Nat.and_two_pow,
      Nat.testBit_lt_two_pow hn]
    rfl
  by_cases hm : more
  · have hor : offset ||| 2 ^ 13 = 2 ^ 13 + offset := by
      rw [Nat.or_comm]
      simpa using (Nat.two_pow_add_eq_or_of_lt h 1).symm
    have htest : (2 ^ 13 + offset).testBit 13 = true := by
      rw [Nat.testBit_two_pow_add_eq, Nat.testBit_lt_two_pow h]
      rfl
    simp only [if_pos hm, show ipFlagMf = 2 ^ 13 from rfl, hor]
    refine ⟨by omega, hbit _ (by omega), by rw [hmod]; omega, ?_⟩
    rw [Nat.and_two_pow, htest]
    simp [hm]
  · simp only [if_neg hm, Nat.or_zero]
    refine ⟨by omega, hbit _ (by omega), by rw [hmod]; omega, ?_⟩
    rw [show ipFlagMf = 2 ^ 13 from rfl, Nat.and_two_pow, Nat.testBit_lt_two_pow h]
    simp [hm]

section Fragment

variable {src dst ip : IpAddr} {protocol identification : Nat}
  {payload : List UInt8} {i : Nat} {s : Reassembly}

/-- A fragment goes to the first slot, and the last one is handed on with its own
length. -/
theorem ipReceived_fragment (hdst : dst = ip ∨ dst = ipBroadcastAddr)
    (hprotocol : protocol < 2 ^ 8) (hid : identification < 2 ^ 16)
    (hi : i < 2 ^ 16) (hslot : s.ids 0 = identification ∨ s.ids 0 = 0) :
    ipReceived ip s (fragmentPacket src dst protocol identification payload i) =
      if i + 1480 < payload.length then
        (none, ⟨storeFragment s.fragmentStorage (i / 8 * 8)
          ((payload.drop i).take (fragmentSize payload i))
          (fragmentSize payload i), Function.update s.ids 0 identification⟩)
      else
        (dispatch protocol (storeFragment s.fragmentStorage (i / 8 * 8)
          ((payload.drop i).take (fragmentSize payload i))
          (fragmentSize payload i)) (fragmentSize payload i),
        ⟨storeFragment s.fragmentStorage (i / 8 * 8)
          ((payload.drop i).take (fragmentSize payload i))
          (fragmentSize payload i), Function.update s.ids 0 0⟩) := by
  obtain ⟨hlt, hdf, hoffset, hmf⟩ := flagsOffset_spec
    (show i / 8 < 2 ^ 13 by omega) (i + 1480 < payload.length)
  have hsize : fragmentSize payload i ≤ 1480 := Nat.min_le_left _ _
  have hfind : findSlot s.ids identification 12 0 = some 0 := by
    rw [findSlot, if_pos hslot]
  rw [fragmentPacket_eq, ipReceived_sealed _ _ _ _ _ _ _ _ hdst, receivePayload]
  rw [wordAt_totalLength _ _ _ _ _ _ _ (by rw [ipHeaderLen]; omega),
    wordAt_identification _ _ _ _ _ _ _ hid, wordAt_flagsOffset _ _ _ _ _ _ _ hlt,
    getD_protocol _ _ _ _ _ _ _ hprotocol, sealedHeader, ipHeader_drop]
  have hlength : ((ipHeaderLen + fragmentSize payload i : Nat) : Int) - (20 : Nat) =
      (fragmentSize payload i : Int) := by
    rw [ipHeaderLen]
    omega
  simp only [hdf, ne_eq, not_true_eq_false, if_false, hfind, hoffset, hlength,
    Int.toNat_natCast, Nat.zero_mul, Nat.zero_add]
  by_cases hmore : i + 1480 < payload.length
  · rw [if_neg (fun h => hmf.mp h hmore), if_pos hmore]
  · rw [if_pos (hmf.mpr hmore), if_neg hmore]

end Fragment

/-! ### A whole datagram -/

section Datagram

variable {send : List UInt8 → Int} {src dst ip : IpAddr}
  {protocol identification : Nat} {payload : List UInt8}

theorem fragmentLoop_ends (hlen : payload.length ≤ 65120) : ∀ {n i : Nat},
    payload.length ≤ i + 1480 * n → i % 1480 = 0 →
      ∃ packets res, fragmentLoop send src dst protocol identification payload
        (n + 1) i = some (packets, res)
  | 0, i, hn, _ => by
      rw [fragmentLoop, if_neg (by omega)]
      exact ⟨_, _, rfl⟩
  | n + 1, i, hn, hi => by
      rw [fragmentLoop]
      dsimp only
      split
      · rename_i hlt
        split
        · exact ⟨_, _, rfl⟩
        · have hnext : (i + 1480) % 2 ^ 16 = i + 1480 :=
            Nat.mod_eq_of_lt (by omega)
          obtain ⟨packets, res, hrest⟩ := fragmentLoop_ends hlen
            (show payload.length ≤ i + 1480 + 1480 * n by omega) (by omega)
          rw [hnext, hrest]
          exact ⟨_, _, rfl⟩
      · exact ⟨_, _, rfl⟩

theorem fragmentLoop_mem : ∀ {n i : Nat} {packets : List (List UInt8)} {res : Int},
    fragmentLoop send src dst protocol identification payload n i =
      some (packets, res) →
    ∀ packet ∈ packets, ∃ j,
      packet = fragmentPacket src dst protocol identification payload j
  | 0, _, _, _, h => by cases h
  | n + 1, i, packets, res, h => by
      rw [fragmentLoop] at h
      dsimp only at h
      split at h
      · split at h
        · obtain ⟨rfl, -⟩ := Prod.mk.inj (Option.some.inj h)
          intro packet hpacket
          exact ⟨i, List.mem_singleton.mp hpacket⟩
        · rw [Option.bind_eq_bind, Option.bind_eq_some_iff] at h
          obtain ⟨⟨rest, res'⟩, hrest, h⟩ := h
          obtain ⟨rfl, -⟩ := Prod.mk.inj (Option.some.inj h)
          intro packet hpacket
          rcases List.mem_cons.mp hpacket with rfl | hmem
          · exact ⟨i, rfl⟩
          · exact fragmentLoop_mem hrest packet hmem
      · obtain ⟨rfl, -⟩ := Prod.mk.inj (Option.some.inj h)
        intro packet hpacket
        cases hpacket

theorem ipReceived_length {s : Reassembly} {i : Nat} {d : Datagram}
    (h : (ipReceived ip s (fragmentPacket src dst protocol identification payload
      i)).1 = some d) : d.payloadLength ≤ 1480 := by
  have hsize : fragmentSize payload i ≤ 1480 := Nat.min_le_left _ _
  rw [fragmentPacket_eq] at h
  rw [ipReceived_sealed_length _ _ _ _ _ _ _ h,
    wordAt_totalLength _ _ _ _ _ _ _ (by rw [ipHeaderLen]; omega), ipHeaderLen]
  omega

theorem receiveAll_length : ∀ {packets : List (List UInt8)} {s : Reassembly},
    (∀ packet ∈ packets, ∃ i,
      packet = fragmentPacket src dst protocol identification payload i) →
    ∀ d ∈ (receiveAll ip s packets).1, d.payloadLength ≤ 1480
  | [], _, _, d, hd => by cases hd
  | packet :: rest, s, h, d, hd => by
      rw [receiveAll] at hd
      dsimp only at hd
      rcases List.mem_append.mp hd with hd | hd
      · obtain ⟨i, rfl⟩ := h packet List.mem_cons_self
        rw [Option.mem_toList] at hd
        exact ipReceived_length hd
      · exact receiveAll_length (fun p hp => h p (List.mem_cons_of_mem _ hp)) d hd

theorem storeFragment_spec {storage : Nat → UInt8} {i : Nat}
    (hstored : ∀ a < i, storage a = payload.getD a 0) (a : Nat)
    (ha : a < i + fragmentSize payload i) :
    storeFragment storage i ((payload.drop i).take (fragmentSize payload i))
      (fragmentSize payload i) a = payload.getD a 0 := by
  rw [storeFragment]
  by_cases hlow : i ≤ a
  · have hin : a - i < fragmentSize payload i := by omega
    rw [if_pos ⟨hlow, ha⟩, List.getD_eq_getElem?_getD, List.getD_eq_getElem?_getD,
      List.getElem?_take, if_pos hin, List.getElem?_drop,
      Nat.add_sub_cancel' hlow]
  · rw [if_neg (by omega)]
    exact hstored a (by omega)

/-- The host the datagram is for hands on one datagram: the bytes are all there,
but the length is that of the last fragment. -/
theorem receiveAll_fragments (hsend : ∀ packet, 0 ≤ send packet)
    (hdst : dst = ip ∨ dst = ipBroadcastAddr) (hprotocol : protocol < 2 ^ 8)
    (hid : identification < 2 ^ 16) (hlen : payload.length ≤ 65120) :
    ∀ {n i : Nat} {s : Reassembly} {packets : List (List UInt8)} {res : Int},
      i % 1480 = 0 → i < payload.length →
      fragmentLoop send src dst protocol identification payload n i =
        some (packets, res) →
      (s.ids 0 = identification ∨ s.ids 0 = 0) →
      (∀ a < i, s.fragmentStorage a = payload.getD a 0) →
      ∃ bytes : Nat → UInt8, (∀ a < payload.length, bytes a = payload.getD a 0) ∧
        (receiveAll ip s packets).1 =
          (dispatch protocol bytes ((payload.length - 1) % 1480 + 1 : Nat)).toList
  | 0, _, _, _, _, _, _, h, _, _ => by cases h
  | n + 1, i, s, packets, res, hi, hlt, h, hslot, hstored => by
      have hnext : (i + 1480) % 2 ^ 16 = i + 1480 := Nat.mod_eq_of_lt (by omega)
      have haligned : i / 8 * 8 = i := by omega
      rw [fragmentLoop, if_pos hlt] at h
      dsimp only at h
      have hok : ¬send (fragmentPacket src dst protocol identification payload i) <
          0 := Int.not_lt.mpr (hsend _)
      rw [if_neg hok, hnext, Option.bind_eq_bind,
        Option.bind_eq_some_iff] at h
      obtain ⟨⟨rest, res'⟩, hrest, h⟩ := h
      obtain ⟨rfl, -⟩ := Prod.mk.inj (Option.some.inj h)
      rw [receiveAll, ipReceived_fragment hdst hprotocol hid (by omega) hslot,
        haligned]
      have hbytes := storeFragment_spec hstored
      generalize storeFragment s.fragmentStorage i
        ((payload.drop i).take (fragmentSize payload i))
        (fragmentSize payload i) = storage at hbytes
      by_cases hmore : i + 1480 < payload.length
      · have hsize : fragmentSize payload i = 1480 := by
          rw [fragmentSize]
          omega
        rw [if_pos hmore]
        refine receiveAll_fragments hsend hdst hprotocol hid hlen (by omega) hmore
          hrest (Or.inl ?_) fun a ha => hbytes a ?_
        · simp
        · omega
      · have hsize : fragmentSize payload i = (payload.length - 1) % 1480 + 1 := by
          rw [fragmentSize]
          omega
        have hdone : rest = [] := by
          cases n with
          | zero => cases hrest
          | succ n =>
              rw [fragmentLoop, if_neg hmore] at hrest
              exact (Prod.mk.inj (Option.some.inj hrest)).1.symm
        rw [if_neg hmore, hdone, hsize]
        refine ⟨storage, fun a ha => hbytes a (by omega), ?_⟩
        simp [receiveAll]

end Datagram

/-- The handler gets one datagram, with the bytes and the length of the payload. -/
def Reassembled (datagrams : List Datagram) (payload : List UInt8) : Prop :=
  ∃ d, datagrams = [d] ∧ d.payloadLength = payload.length ∧
    ∀ a < payload.length, d.payload a = payload.getD a 0

/-- A datagram that is sent in fragments is handed on to no protocol as it was
sent: the length handed on is that of a fragment. -/
theorem ip_reassembly_never (send : List UInt8 → Int) (src dst ip : IpAddr)
    (protocol identification : Nat) (payload : List UInt8) (s : Reassembly)
    (hshort : 1501 ≤ payload.length) (hlong : payload.length ≤ 65120) :
    ∃ rounds packets res,
      ipSend send src dst protocol identification payload rounds =
        some (packets, res) ∧
      ¬Reassembled (receiveAll ip s packets).1 payload := by
  obtain ⟨packets, res, hsent⟩ : ∃ packets res, fragmentLoop send src dst protocol
      identification payload 45 0 = some (packets, res) :=
    fragmentLoop_ends hlong (by omega) (by omega)
  refine ⟨45, packets, res, ?_, ?_⟩
  · rw [ipSend, if_pos (by omega)]
    exact hsent
  · rintro ⟨d, hone, hlength, -⟩
    have hmem : d ∈ (receiveAll ip s packets).1 := by
      rw [hone]
      exact List.mem_singleton_self d
    have hbound := receiveAll_length (fragmentLoop_mem hsent) d hmem
    omega

def zeroPayload : List UInt8 := List.replicate 1501 0

theorem ip_reassembly_never_zeroPayload :
    1501 ≤ zeroPayload.length ∧ zeroPayload.length ≤ 65120 ∧
      ∃ rounds packets res,
        ipSend (fun _ => 0) ⟨10, 0, 0, 1⟩ ⟨10, 0, 0, 2⟩ ipProtoUdp 1 zeroPayload
          rounds = some (packets, res) ∧
        ¬Reassembled (receiveAll ⟨10, 0, 0, 2⟩ ⟨fun _ => 0, fun _ => 0⟩
          packets).1 zeroPayload := by
  have hlen : zeroPayload.length = 1501 := List.length_replicate
  refine ⟨by omega, by omega, ?_⟩
  exact ip_reassembly_never _ _ _ _ _ _ _ _ (by omega) (by omega)

/-- UDP gets the 1501 bytes with a length of 21. -/
theorem zeroPayload_length_lost : ∃ rounds packets res d,
    ipSend (fun _ => 0) ⟨10, 0, 0, 1⟩ ⟨10, 0, 0, 2⟩ ipProtoUdp 1 zeroPayload rounds =
      some (packets, res) ∧
    (receiveAll ⟨10, 0, 0, 2⟩ ⟨fun _ => 0, fun _ => 0⟩ packets).1 = [d] ∧
    d.payloadLength = 21 ∧ zeroPayload.length = 1501 := by
  have hlen : zeroPayload.length = 1501 := List.length_replicate
  obtain ⟨packets, res, hsent⟩ : ∃ packets res, fragmentLoop (fun _ => 0)
      ⟨10, 0, 0, 1⟩ ⟨10, 0, 0, 2⟩ ipProtoUdp 1 zeroPayload 45 0 =
        some (packets, res) :=
    fragmentLoop_ends (by omega) (by omega) (by omega)
  have hfree : (⟨fun _ => 0, fun _ => 0⟩ : Reassembly).ids 0 = 1 ∨
      (⟨fun _ => 0, fun _ => 0⟩ : Reassembly).ids 0 = 0 := Or.inr rfl
  have hdst : (⟨10, 0, 0, 2⟩ : IpAddr) = ⟨10, 0, 0, 2⟩ ∨
      (⟨10, 0, 0, 2⟩ : IpAddr) = ipBroadcastAddr := Or.inl rfl
  obtain ⟨bytes, -, hall⟩ := receiveAll_fragments (fun _ => Int.le_refl 0) hdst
    (by decide) (by decide) (by omega) (by omega) (by omega) hsent hfree
    (fun a ha => absurd ha (Nat.not_lt_zero a))
  refine ⟨45, packets, res, ⟨ipProtoUdp, bytes, 21⟩, ?_, ?_, rfl, hlen⟩
  · rw [ipSend, if_pos (by omega)]
    exact hsent
  · rw [hall, hlen]
    rfl

end GlitchedOS
