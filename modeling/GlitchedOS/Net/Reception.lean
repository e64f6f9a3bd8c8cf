/-
The memory a received frame makes the kernel touch.  `frame_received`, `ip_received`
and `udp_received` are followed on a frame in memory, with the stale bytes behind
it, and each access to the frame, to `fragment_storage` and to `udp_packet_buffer`
is noted.
-/
import GlitchedOS.Net.Socket

namespace GlitchedOS

inductive Access where
  /-- A byte of the frame is read. -/
  | read (a : Nat)
  /-- `memcpy` is called with this length. -/
  | copy (len : Int)
  /-- `len` bytes are written to a row of `fragment_storage`. -/
  | store (offset : Nat) (len : Int)
  /-- `len` bytes are written to an entry of `udp_packet_buffer`. -/
  | buffer (offset : Nat) (len : Int)
deriving DecidableEq

/-- The access stays within the memory it is meant for; `n` is the length of the
frame. -/
def Access.Safe (n : Nat) : Access → Prop
  | .read a => a < n
  | .copy len => 0 ≤ len
  | .store offset len => offset + len ≤ fragmentRow
  | .buffer offset len => offset + len ≤ udpSlotSize

instance decidableAccessSafe (n : Nat) : DecidablePred (Access.Safe n)
  | .read a => inferInstanceAs (Decidable (a < n))
  | .copy len => inferInstanceAs (Decidable (0 ≤ len))
  | .store offset len => inferInstanceAs (Decidable (offset + len ≤ fragmentRow))
  | .buffer offset len => inferInstanceAs (Decidable (offset + len ≤ udpSlotSize))

structure Received where
  accesses : List Access
  reassembly : Reassembly
  net : Net

namespace Received

/-- `k` bytes of the frame are read from `a` on. -/
def reads (a k : Nat) : List Access := (List.range k).map fun i => .read (a + i)

def after (accesses : List Access) (rest : Received) : Received :=
  { rest with accesses := accesses ++ rest.accesses }

end Received

open Received

def ipBase : Nat := 14

section Fields

variable (m : Nat → UInt8)

def ihlAt : Nat := (m ipBase).toNat % 16

def versionAt : Nat := (m ipBase).toNat / 16

def sourceAt : IpAddr := ⟨m 26, m 27, m 28, m 29⟩

def destAt : IpAddr := ⟨m 30, m 31, m 32, m 33⟩

/-- `payload_length`, an `int`. -/
def payloadLengthAt : Int := (memWord m 16 : Int) - (ihlAt m * 4 : Nat)

def payloadAt : Nat := ipBase + ihlAt m * 4

def fragmentOffset : Nat := (memWord m 20 &&& 0x1FFF) * 8

/-- The bytes of the destination that `memcmp` reads. -/
def compared (ip : IpAddr) : Nat :=
  if m 30 ≠ ip.b0 then 1 else if m 31 ≠ ip.b1 then 2 else if m 32 ≠ ip.b2 then 3
  else 4

def zeroHeaderChecksum : Nat → UInt8 := fun a => if a = 24 ∨ a = 25 then 0 else m a

/-- The checksum `ip_received` computes. -/
def headerChecksum : Nat :=
  2 ^ 16 - 1 - foldCarry 4 ((List.range (ihlAt m * 2)).map fun i =>
    memWord (zeroHeaderChecksum m) (ipBase + 2 * i)).sum

end Fields

section Code

variable (r : Reassembly) (net : Net) (m : Nat → UInt8)

/-- Where a packet lies: in the frame, or in a row of `fragment_storage`. -/
inductive Place where
  | frame (base : Nat)
  | row (i : Nat)

/-- The bytes of the frame that are read with those of a packet. -/
def Place.reads (place : Place) (a k : Nat) : List Access :=
  match place with
  | .frame base => Received.reads (base + a) k
  | .row _ => []

/-- `udp_header->checksum = 0` -/
def Place.clearing : Place → List Access
  | .frame _ => []
  | .row _ => [.store 6 2]

def Place.clear (place : Place) : Reassembly :=
  match place with
  | .frame _ => r
  | .row i => { r with fragmentStorage := fun a =>
      if a = i * fragmentRow + 6 ∨ a = i * fragmentRow + 7 then 0
      else r.fragmentStorage a }

/-- `udp_received` -/
def udpReceivedAt (place : Place) (packet : Nat → UInt8) (len : Int) : Received :=
  if len < udpHeaderSize then ⟨[], r, net⟩
  else after (place.reads 4 2) <|
  if (memWord packet 4 : Int) ≠ len then ⟨[], r, net⟩
  else after (place.reads 6 2 ++ place.clearing ++ reads 26 4 ++ reads 30 4 ++
    place.reads 0 (2 * ((len.toNat + 1) / 2))) <|
  if memWord packet 6 ≠
      udpChecksum (sourceAt m) (destAt m) (zeroChecksum packet) len.toNat
  then ⟨[], place.clear r, net⟩
  else after (place.reads 2 2) <|
  match net.receiveSlot packet (sourceAt m) (destAt m) len with
  | none => ⟨[], place.clear r, net⟩
  | some _ => ⟨[.copy 4, .buffer 0 4] ++ reads 26 4 ++ [.copy len, .buffer 4 len] ++
      place.reads 0 len.toNat,
    place.clear r, net.udpReceived packet (sourceAt m) (destAt m) len⟩

/-- The switch on the protocol; only `udp_received` is followed. -/
def handleProtocol (place : Place) (packet : Nat → UInt8) (len : Int) :
    Received :=
  after [.read 23] <|
  if (m 23).toNat = ipProtoUdp then udpReceivedAt r net m place packet len
  else ⟨[], r, net⟩

/-- `fragment_storage` after the `memcpy` of a fragment to slot `i`. -/
def storedAt (i : Nat) : Nat → UInt8 := fun a =>
  let start := i * fragmentRow + fragmentOffset m
  if start ≤ a ∧ a < start + (payloadLengthAt m).toNat then
    m (payloadAt m + (a - start))
  else r.fragmentStorage a

/-- `ip_received` from the payload on. -/
def receivePayloadAt : Received :=
  let len := payloadLengthAt m
  after (reads 16 2 ++ reads 20 2) <|
  if memWord m 20 &&& ipFlagDf ≠ 0 then
    handleProtocol r net m (.frame (payloadAt m)) (fun a => m (payloadAt m + a)) len
  else after (reads 18 2) <|
  match findSlot r.ids (memWord m 18) 12 0 with
  | none =>
    handleProtocol r net m (.frame (payloadAt m)) (fun a => m (payloadAt m + a)) len
  | some i =>
    let storage := storedAt r m i
    after ([.copy len, .store (fragmentOffset m) len] ++
      reads (payloadAt m) len.toNat) <|
    if memWord m 20 &&& ipFlagMf = 0 then
      handleProtocol ⟨storage, Function.update r.ids i 0⟩ net m (.row i)
        (fun a => storage (i * fragmentRow + a)) len
    else ⟨[], ⟨storage, Function.update r.ids i (memWord m 18)⟩, net⟩

/-- `ip_received`; `ip` is the address of the card. -/
def ipReceivedAt (ip : IpAddr) : Received :=
  after [.read ipBase] <|
  if versionAt m ≠ 4 ∨ ihlAt m < 5 then ⟨[], r, net⟩
  else after (reads 30 (compared m ip) ++
    if destAt m ≠ ip then reads 30 (compared m ipBroadcastAddr) else []) <|
  if destAt m ≠ ip ∧ destAt m ≠ ipBroadcastAddr then ⟨[], r, net⟩
  else after (reads 24 2 ++ reads ipBase (ihlAt m * 4)) <|
  if memWord m 24 ≠ headerChecksum m then ⟨[], r, net⟩
  else receivePayloadAt r net m

/-- `frame_received` of a frame of `n` bytes. -/
def frameReceived (ip : IpAddr) (n : Nat) : Received :=
  if 0 < n ∧ memWord m 12 = 0x0800 then ipReceivedAt r net m ip else ⟨[], r, net⟩

end Code

/-- All accesses stay within the memory they are meant for. -/
def AllSafe (n : Nat) (accesses : List Access) : Prop := ∀ a ∈ accesses, a.Safe n

def Received.Safe (n : Nat) (x : Received) : Prop := AllSafe n x.accesses

section Condition

variable (r : Reassembly) (net : Net) (m : Nat → UInt8) (ip : IpAddr) (n : Nat)

/-- The header is one `ip_received` goes on with. -/
def Accepted : Prop :=
  versionAt m = 4 ∧ 5 ≤ ihlAt m ∧ (destAt m = ip ∨ destAt m = ipBroadcastAddr) ∧
    memWord m 24 = headerChecksum m

def headerRead : Nat :=
  if versionAt m ≠ 4 ∨ ihlAt m < 5 then 1
  else if destAt m = ip ∨ destAt m = ipBroadcastAddr then ihlAt m * 4
  else 16 + max (compared m ip) (compared m ipBroadcastAddr)

/-- A UDP packet that is stored fits its entry. -/
def EntryFits (packet : Nat → UInt8) : Prop :=
  (m 23).toNat = ipProtoUdp →
    net.receiveSlot packet (sourceAt m) (destAt m) (payloadLengthAt m) ≠ none →
    payloadLengthAt m ≤ 1480

/-- A UDP packet in the frame was received as far as it is read. -/
def PacketFits : Prop :=
  (m 23).toNat = ipProtoUdp → 8 ≤ payloadLengthAt m → payloadAt m + 6 ≤ n ∧
    ((memWord m (payloadAt m + 4) : Int) = payloadLengthAt m →
      payloadAt m + 2 * (((payloadLengthAt m).toNat + 1) / 2) ≤ n)

/-- A fragment was received whole, and its row has room for it. -/
def FragmentFits : Prop :=
  0 ≤ payloadLengthAt m ∧ payloadAt m + payloadLengthAt m ≤ n ∧
    fragmentOffset m + payloadLengthAt m ≤ fragmentRow

/-- The condition on a frame of `n` bytes. -/
def FrameFits : Prop :=
  0 < n → memWord m 12 = 0x0800 → ipBase + headerRead m ip ≤ n ∧
    (Accepted m ip →
      match (if memWord m 20 &&& ipFlagDf ≠ 0 then none
        else findSlot r.ids (memWord m 18) 12 0) with
      | none => PacketFits m n ∧ EntryFits net m fun a => m (payloadAt m + a)
      | some i => FragmentFits m n ∧ (memWord m 20 &&& ipFlagMf = 0 →
          EntryFits net m fun a => storedAt r m i (i * fragmentRow + a)))

end Condition

section AllSafe

variable {n : Nat}

@[simp] theorem allSafe_nil : AllSafe n [] := fun _ h => absurd h List.not_mem_nil

@[simp] theorem allSafe_append (l l' : List Access) :
    AllSafe n (l ++ l') ↔ AllSafe n l ∧ AllSafe n l' := List.forall_mem_append

@[simp] theorem allSafe_cons (a : Access) (l : List Access) :
    AllSafe n (a :: l) ↔ a.Safe n ∧ AllSafe n l := List.forall_mem_cons

theorem allSafe_reads (a k : Nat) :
    AllSafe n (reads a k) ↔ k = 0 ∨ a + k ≤ n := by
  simp only [AllSafe, reads, List.forall_mem_map, List.mem_range, Access.Safe]
  constructor
  · intro h
    rcases Nat.eq_zero_or_pos k with hk | hk
    · exact Or.inl hk
    · have hlast := h (k - 1) (by omega)
      omega
  · intro h i hi
    omega

@[simp] theorem Received.safe_nil (r : Reassembly) (net : Net) :
    (Received.mk [] r net).Safe n := allSafe_nil

theorem Received.safe_after (accesses : List Access) (rest : Received) :
    (after accesses rest).Safe n ↔ AllSafe n accesses ∧ rest.Safe n :=
  allSafe_append _ _

end AllSafe

/-- A packet that is stored has passed the checks of `udp_received`. -/
theorem Net.receiveSlot_valid {net : Net} {packet : Nat → UInt8} {sender dest : IpAddr}
    {len : Int} (h : net.receiveSlot packet sender dest len ≠ none) :
    8 ≤ len ∧ (memWord packet 4 : Int) = len ∧
      memWord packet 6 = udpChecksum sender dest (zeroChecksum packet) len.toNat := by
  unfold Net.receiveSlot at h
  split at h
  · exact absurd rfl h
  rename_i hlen
  split at h
  · exact absurd rfl h
  rename_i hfield
  split at h
  · exact absurd rfl h
  rename_i hsum
  exact ⟨Int.not_lt.mp hlen, not_not.mp hfield, not_not.mp hsum⟩

section Safety

variable {r : Reassembly} {net : Net} {m : Nat → UInt8} {ip : IpAddr} {n : Nat}

/-- The accesses of `udp_received` beside those to the packet are safe. -/
theorem udpReceivedAt_safe {place : Place} {packet : Nat → UInt8} {len : Int}
    (hn : 34 ≤ n) : (udpReceivedAt r net m place packet len).Safe n ↔
      (8 ≤ len → AllSafe n (place.reads 4 2) ∧
        ((memWord packet 4 : Int) = len → AllSafe n (place.reads 6 2) ∧
          AllSafe n (place.reads 0 (2 * ((len.toNat + 1) / 2))) ∧
          (memWord packet 6 =
              udpChecksum (sourceAt m) (destAt m) (zeroChecksum packet) len.toNat →
            AllSafe n (place.reads 2 2) ∧
            (net.receiveSlot packet (sourceAt m) (destAt m) len ≠ none →
              len ≤ 1480 ∧ AllSafe n (place.reads 0 len.toNat))))) := by
  have hclearing : AllSafe n place.clearing := by
    cases place <;> simp [Place.clearing, Access.Safe, fragmentRow]
  have hsource : AllSafe n (reads 26 4) := (allSafe_reads 26 4).mpr (by omega)
  have hdest : AllSafe n (reads 30 4) := (allSafe_reads 30 4).mpr (by omega)
  rw [udpReceivedAt]
  by_cases hlen : len < (udpHeaderSize : Int)
  · rw [if_pos hlen]
    exact iff_of_true (safe_nil r net) fun hc => absurd hlen (Int.not_lt.mpr hc)
  have hle : 8 ≤ len := Int.not_lt.mp hlen
  rw [if_neg hlen, safe_after]
  by_cases hfield : (memWord packet 4 : Int) = len
  swap
  · rw [if_pos hfield]
    simp only [hle, hfield, safe_nil, and_true, true_implies, false_implies]
  rw [if_neg (not_not.mpr hfield), safe_after]
  simp only [allSafe_append, hclearing, hsource, hdest, and_true, hle, hfield,
    true_implies]
  by_cases hsum : memWord packet 6 =
      udpChecksum (sourceAt m) (destAt m) (zeroChecksum packet) len.toNat
  swap
  · rw [if_pos hsum]
    simp only [hsum, safe_nil, and_true, false_implies]
  rw [if_neg (not_not.mpr hsum), safe_after]
  simp only [hsum, true_implies, and_assoc]
  cases net.receiveSlot packet (sourceAt m) (destAt m) len with
  | none => simp
  | some i =>
      have hbuffer : AllSafe n [Access.copy len, Access.buffer 4 len] ↔
          len ≤ 1480 := by
        simp only [allSafe_cons, Access.Safe, udpSlotSize, allSafe_nil, and_true]
        omega
      have hentry : AllSafe n [Access.copy 4, Access.buffer 0 4] := by
        simp [Access.Safe, udpSlotSize]
      simp only [Received.Safe, allSafe_append, hentry, hsource, hbuffer, true_and,
        ne_eq, reduceCtorEq, not_false_eq_true, true_implies]

end Safety

section Safety

variable {r : Reassembly} {net : Net} {m : Nat → UInt8} {ip : IpAddr} {n : Nat}

theorem allSafe_place_frame (base a k : Nat) :
    AllSafe n ((Place.frame base).reads a k) ↔ k = 0 ∨ base + a + k ≤ n :=
  allSafe_reads _ _

theorem handleProtocol_frame (hn : 34 ≤ n) :
    (handleProtocol r net m (.frame (payloadAt m)) (fun a => m (payloadAt m + a))
      (payloadLengthAt m)).Safe n ↔
      PacketFits m n ∧ EntryFits net m fun a => m (payloadAt m + a) := by
  have hread : AllSafe n [Access.read 23] := by
    simp only [allSafe_cons, Access.Safe, allSafe_nil, and_true]
    omega
  rw [handleProtocol, safe_after, PacketFits, EntryFits]
  by_cases hudp : (m 23).toNat = ipProtoUdp
  swap
  · rw [if_neg hudp]
    simp only [hread, hudp, safe_nil, false_implies, and_self]
  have hfield : memWord (fun a => m (payloadAt m + a)) 4 =
      memWord m (payloadAt m + 4) := rfl
  rw [if_pos hudp, udpReceivedAt_safe hn, hfield]
  simp only [hread, hudp, true_and, true_implies, allSafe_place_frame]
  constructor
  · intro h
    constructor
    · intro hlen
      obtain ⟨hlength, hrest⟩ := h hlen
      refine ⟨by omega, fun hsame => ?_⟩
      obtain ⟨-, hsum, -⟩ := hrest hsame
      omega
    · intro hslot
      obtain ⟨hlen, hsame, hsum⟩ := Net.receiveSlot_valid hslot
      exact ((((h hlen).2 hsame).2.2 hsum).2 hslot).1
  · rintro ⟨hpacket, hentry⟩ hlen
    obtain ⟨hlength, hrest⟩ := hpacket hlen
    refine ⟨by omega, fun hsame => ?_⟩
    have hwhole := hrest hsame
    refine ⟨by omega, by omega, fun _ => ⟨by omega, fun hslot => ⟨hentry hslot, ?_⟩⟩⟩
    omega

/-- The handler of a packet that lies in `fragment_storage`. -/
theorem handleProtocol_row {r' : Reassembly} (hn : 34 ≤ n) (i : Nat)
    (packet : Nat → UInt8) :
    (handleProtocol r' net m (.row i) packet (payloadLengthAt m)).Safe n ↔
      EntryFits net m packet := by
  have hread : AllSafe n [Access.read 23] := by
    simp only [allSafe_cons, Access.Safe, allSafe_nil, and_true]
    omega
  rw [handleProtocol, safe_after, EntryFits]
  by_cases hudp : (m 23).toNat = ipProtoUdp
  swap
  · rw [if_neg hudp]
    simp only [hread, hudp, safe_nil, false_implies, and_self]
  rw [if_pos hudp, udpReceivedAt_safe hn]
  simp only [hread, hudp, true_and, true_implies, Place.reads, allSafe_nil, and_true]
  constructor
  · intro h hslot
    obtain ⟨hlen, hsame, hsum⟩ := Net.receiveSlot_valid hslot
    exact h hlen hsame hsum hslot
  · exact fun h _ _ _ => h

theorem receivePayloadAt_safe (hn : payloadAt m ≤ n) (hihl : 5 ≤ ihlAt m) :
    (receivePayloadAt r net m).Safe n ↔
      match (if memWord m 20 &&& ipFlagDf ≠ 0 then none
        else findSlot r.ids (memWord m 18) 12 0) with
      | none => PacketFits m n ∧ EntryFits net m fun a => m (payloadAt m + a)
      | some i => FragmentFits m n ∧ (memWord m 20 &&& ipFlagMf = 0 →
          EntryFits net m fun a => storedAt r m i (i * fragmentRow + a)) := by
  have hheader : 34 ≤ n := by
    rw [payloadAt, ipBase] at hn
    omega
  have hread : ∀ a k, a + k ≤ 34 → AllSafe n (reads a k) := fun a k hle =>
    (allSafe_reads a k).mpr (by omega)
  rw [receivePayloadAt, safe_after]
  simp only [allSafe_append, hread, Nat.reduceAdd, Nat.reduceLeDiff, true_and]
  by_cases hdf : memWord m 20 &&& ipFlagDf ≠ 0
  · rw [if_pos hdf, if_pos hdf]
    exact handleProtocol_frame hheader
  rw [if_neg hdf, if_neg hdf, safe_after]
  simp only [hread, Nat.reduceAdd, Nat.reduceLeDiff, true_and]
  cases findSlot r.ids (memWord m 18) 12 0 with
  | none => exact handleProtocol_frame hheader
  | some i =>
      have hstore : AllSafe n ([Access.copy (payloadLengthAt m),
          Access.store (fragmentOffset m) (payloadLengthAt m)] ++
          reads (payloadAt m) (payloadLengthAt m).toNat) ↔ FragmentFits m n := by
        simp only [allSafe_append, allSafe_cons, allSafe_nil, Access.Safe, and_true,
          allSafe_reads, FragmentFits]
        omega
      dsimp only
      rw [safe_after, hstore]
      split
      · rename_i hmf
        rw [handleProtocol_row hheader]
        simp [hmf]
      · rename_i hmf
        simp [hmf]

theorem compared_le (ip : IpAddr) : 1 ≤ compared m ip ∧ compared m ip ≤ 4 := by
  rw [compared]
  repeat' split
  all_goals omega

theorem ipReceivedAt_safe : (ipReceivedAt r net m ip).Safe n ↔
    ipBase + headerRead m ip ≤ n ∧
      (Accepted m ip →
        match (if memWord m 20 &&& ipFlagDf ≠ 0 then none
          else findSlot r.ids (memWord m 18) 12 0) with
        | none => PacketFits m n ∧ EntryFits net m fun a => m (payloadAt m + a)
        | some i => FragmentFits m n ∧ (memWord m 20 &&& ipFlagMf = 0 →
            EntryFits net m fun a => storedAt r m i (i * fragmentRow + a))) := by
  have hfirst : AllSafe n [Access.read ipBase] ↔ 15 ≤ n := by
    simp only [allSafe_cons, Access.Safe, allSafe_nil, and_true, ipBase]
    omega
  rw [ipReceivedAt, safe_after, headerRead, Accepted, hfirst]
  by_cases hversion : versionAt m ≠ 4 ∨ ihlAt m < 5
  · rw [if_pos hversion, if_pos hversion]
    have hnot : ¬(versionAt m = 4 ∧ 5 ≤ ihlAt m) := by omega
    simp only [safe_nil, and_true]
    constructor
    · intro hle
      exact ⟨hle, fun hacc => absurd ⟨hacc.1, hacc.2.1⟩ hnot⟩
    · exact And.left
  obtain ⟨hfour, hihl⟩ : versionAt m = 4 ∧ 5 ≤ ihlAt m := by omega
  rw [if_neg hversion, if_neg hversion, safe_after]
  have hip := compared_le (m := m) ip
  have hbroadcast := compared_le (m := m) ipBroadcastAddr
  by_cases hours : destAt m = ip ∨ destAt m = ipBroadcastAddr
  swap
  · obtain ⟨hnip, hnbroadcast⟩ := not_or.mp hours
    rw [if_pos hnip, if_pos ⟨hnip, hnbroadcast⟩, if_neg hours]
    simp only [allSafe_append, allSafe_reads, safe_nil, and_true, hours, false_and,
      and_false, false_implies, ipBase]
    omega
  have hdest : 34 ≤ n → AllSafe n (reads 30 (compared m ip) ++
      if destAt m ≠ ip then reads 30 (compared m ipBroadcastAddr) else []) := by
    intro hle
    simp only [allSafe_append, allSafe_reads]
    refine ⟨by omega, ?_⟩
    split
    · exact (allSafe_reads _ _).mpr (by omega)
    · exact allSafe_nil
  have hheader : AllSafe n (reads 24 2 ++ reads ipBase (ihlAt m * 4)) ↔
      ipBase + ihlAt m * 4 ≤ n := by
    simp only [allSafe_append, allSafe_reads, ipBase]
    omega
  have hnot : ¬(destAt m ≠ ip ∧ destAt m ≠ ipBroadcastAddr) := fun hc =>
    hours.elim hc.1 hc.2
  rw [if_neg hnot, if_pos hours, safe_after, hheader]
  by_cases hsum : memWord m 24 = headerChecksum m
  swap
  · rw [if_pos hsum]
    simp only [safe_nil, and_true, hsum, and_false, false_implies]
    constructor
    · exact fun h => h.2.2
    · intro hle
      rw [ipBase] at hle
      exact ⟨by omega, hdest (by omega), hle⟩
  rw [if_neg (not_not.mpr hsum)]
  constructor
  · rintro ⟨-, -, hle, hsafe⟩
    exact ⟨hle, fun _ => (receivePayloadAt_safe hle hihl).mp hsafe⟩
  · rintro ⟨hle, hrest⟩
    have hsafe := (receivePayloadAt_safe hle hihl).mpr
      (hrest ⟨hfour, hihl, hours, hsum⟩)
    have hlarge : 34 ≤ n := by
      rw [ipBase] at hle
      omega
    exact ⟨by omega, hdest hlarge, hle, hsafe⟩

/-- A frame of any bytes, with any state of the buffers, is received safely if and
only if it meets the condition. -/
theorem frame_safe_iff (r : Reassembly) (net : Net) (m : Nat → UInt8) (ip : IpAddr)
    (n : Nat) : (frameReceived r net m ip n).Safe n ↔ FrameFits r net m ip n := by
  rw [frameReceived, FrameFits]
  by_cases hframe : 0 < n ∧ memWord m 12 = 0x0800
  · rw [if_pos hframe, ipReceivedAt_safe]
    simp only [hframe.1, hframe.2, true_implies]
  · rw [if_neg hframe]
    exact iff_of_true (safe_nil r net) fun hn htype => absurd ⟨hn, htype⟩ hframe

end Safety

/-- A frame of 60 bytes for 10.0.0.1 whose header says that the packet is ten bytes
long. -/
def shortPacket : Nat → UInt8 := fun a =>
  (List.replicate 12 0 ++ [8, 0] ++
    sealedHeader 10 1 0 ipProtoUdp ⟨10, 0, 0, 2⟩ ⟨10, 0, 0, 1⟩).getD a 0

theorem shortPacket_unsafe :
    ¬(frameReceived ⟨fun _ => 0, fun _ => 0⟩ zeroNet shortPacket ⟨10, 0, 0, 1⟩
      60).Safe 60 := by
  intro hsafe
  have hmem : Access.copy (-10) ∈ (frameReceived ⟨fun _ => 0, fun _ => 0⟩ zeroNet
      shortPacket ⟨10, 0, 0, 1⟩ 60).accesses := by decide
  exact absurd (hsafe _ hmem) (by decide)

end GlitchedOS
