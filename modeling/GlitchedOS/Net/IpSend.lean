/-
What `ip_send` gives to the driver.  The packets of a payload tile it when they are at most
as long as the interface takes, verify, and carry its bytes in order.
-/
import GlitchedOS.Net.Fragments

namespace GlitchedOS

/-- The bytes of an Ethernet frame that are for IP. -/
def mtu : Nat := 1500

/-- A packet of `payload` that begins at byte `i`. -/
structure Carries (dst : IpAddr) (payload : List UInt8) (i : Nat) (packet : List UInt8) :
    Prop where
  total : wordAt packet 2 ≤ mtu
  whole : packet.length = wordAt packet 2
  accepted : Accepts dst packet
  offset : offsetOf packet = i
  bytes : packet.drop (headerLength packet) = (payload.drop i).take (lengthOf packet)

/-- The packets carry `payload` from byte `i` on to its end, each from where the one before
it ends, and all but the last say that there are more. -/
inductive Tiles (dst : IpAddr) (payload : List UInt8) : Nat → List (List UInt8) → Prop
  | last {i : Nat} {packet : List UInt8} : Carries dst payload i packet →
      isLast packet = true → i + lengthOf packet = payload.length →
      Tiles dst payload i [packet]
  | more {i : Nat} {packet : List UInt8} {rest : List (List UInt8)} :
      Carries dst payload i packet → isLast packet = false → 0 < lengthOf packet →
      Tiles dst payload (i + lengthOf packet) rest → Tiles dst payload i (packet :: rest)

section Packet

variable {totalLength identification flagsOffset protocol : Nat} {src dst : IpAddr}
  {data payload : List UInt8} {i : Nat}

theorem headerLength_sealed : headerLength (sealedHeader totalLength identification flagsOffset
    protocol src dst ++ data) = ipHeaderLen := by
  have hfirst : ((sealedHeader totalLength identification flagsOffset protocol src dst ++
      data).getD 0 0).toNat = 0x45 := rfl
  rw [headerLength, hfirst]
  rfl

theorem lengthOf_sealed (htotal : totalLength < 2 ^ 16) :
    lengthOf (sealedHeader totalLength identification flagsOffset protocol src dst ++ data) =
      totalLength - ipHeaderLen := by
  rw [lengthOf, wordAt_totalLength _ _ _ _ _ _ _ htotal, headerLength_sealed]

theorem accepts_sealed : Accepts dst (sealedHeader totalLength identification flagsOffset
    protocol src dst ++ data) := by
  have hsum : wordAt (sealedHeader totalLength identification flagsOffset protocol src dst ++
      data) 10 = ipChecksum (ipHeader totalLength identification flagsOffset protocol 0 src dst)
        (ipHeaderLen / 2) := hiByte_loByte (ipChecksum_lt _ _)
  have hcheck : ipChecksum (((sealedHeader totalLength identification flagsOffset protocol src
      dst ++ data).set 10 0).set 11 0) (0x45 % 16 * 2) = ipChecksum (ipHeader totalLength
        identification flagsOffset protocol 0 src dst) (ipHeaderLen / 2) := by
    rw [sealedHeader, ipHeader_zeroed]
    exact ipChecksum_header _ _ _ _ _ _ _ _
  have hfirst : ((sealedHeader totalLength identification flagsOffset protocol src dst ++
      data).getD 0 0).toNat = 0x45 := rfl
  rw [Accepts, hfirst]
  exact ⟨by decide, by decide, .inl rfl, hsum.trans hcheck.symm⟩

theorem carries_sealed (htotal : ipHeaderLen + data.length ≤ mtu)
    (hflags : flagsOffset < 2 ^ 16) (hoffset : (flagsOffset &&& 0x1FFF) * 8 = i)
    (hdata : data = (payload.drop i).take data.length) :
    Carries dst payload i (sealedHeader (ipHeaderLen + data.length) identification flagsOffset
      protocol src dst ++ data) := by
  have hlt : ipHeaderLen + data.length < 2 ^ 16 := by
    unfold mtu at htotal
    omega
  have hword : wordAt (sealedHeader (ipHeaderLen + data.length) identification flagsOffset
      protocol src dst ++ data) 2 = ipHeaderLen + data.length :=
    wordAt_totalLength _ _ _ _ _ _ _ hlt
  refine ⟨hword.trans_le htotal, ?_, accepts_sealed, ?_, ?_⟩
  · rw [hword, List.length_append]
    rfl
  · rw [offsetOf, wordAt_flagsOffset _ _ _ _ _ _ _ hflags]
    exact hoffset
  · rw [lengthOf_sealed hlt, headerLength_sealed, Nat.add_sub_cancel_left, ← hdata]
    rfl

end Packet

section Fragment

variable {src dst : IpAddr} {protocol identification : Nat} {payload : List UInt8} {i : Nat}

theorem fragment_length (payload : List UInt8) (i : Nat) :
    ((payload.drop i).take (fragmentSize payload i)).length = fragmentSize payload i := by
  rw [List.length_take, List.length_drop, fragmentSize]
  omega

theorem lengthOf_fragment :
    lengthOf (fragmentPacket src dst protocol identification payload i) =
      fragmentSize payload i := by
  have hsize : fragmentSize payload i ≤ 1480 := Nat.min_le_left _ _
  have htotal : ipHeaderLen + fragmentSize payload i < 2 ^ 16 := by
    unfold ipHeaderLen
    omega
  rw [fragmentPacket_eq, lengthOf_sealed htotal, Nat.add_sub_cancel_left]

theorem isLast_fragment (hi : i < 2 ^ 16) :
    isLast (fragmentPacket src dst protocol identification payload i) = true ↔
      payload.length ≤ i + 1480 := by
  obtain ⟨hlt, -, -, hmf⟩ := flagsOffset_spec (show i / 8 < 2 ^ 13 by omega)
    (i + 1480 < payload.length)
  rw [isLast, decide_eq_true_iff, fragmentPacket_eq, wordAt_flagsOffset _ _ _ _ _ _ _ hlt, hmf,
    Nat.not_lt]

theorem carries_fragment (hi : i < 2 ^ 16) (haligned : i % 8 = 0) :
    Carries dst payload i (fragmentPacket src dst protocol identification payload i) := by
  obtain ⟨hlt, -, hoffset, -⟩ := flagsOffset_spec (show i / 8 < 2 ^ 13 by omega)
    (i + 1480 < payload.length)
  have hlength := fragment_length payload i
  have hsize : fragmentSize payload i ≤ 1480 := Nat.min_le_left _ _
  have htotal : ipHeaderLen + ((payload.drop i).take (fragmentSize payload i)).length ≤ mtu := by
    rw [hlength, ipHeaderLen, mtu]
    omega
  have hcarries := @carries_sealed identification _ protocol src dst _ payload i htotal hlt
    (by rw [hoffset]; omega) (by rw [hlength])
  rw [hlength] at hcarries
  rw [fragmentPacket_eq]
  exact hcarries

end Fragment

section Loop

variable {send : List UInt8 → Int} {src dst : IpAddr} {protocol identification : Nat}
  {payload : List UInt8}

theorem fragmentLoop_round (hsend : ∀ packet, 0 ≤ send packet) {n i : Nat}
    {packets : List (List UInt8)} {res : Int} (hlt : i < payload.length)
    (h : fragmentLoop send src dst protocol identification payload (n + 1) i =
      some (packets, res)) :
    ∃ rest, packets = fragmentPacket src dst protocol identification payload i :: rest ∧
      fragmentLoop send src dst protocol identification payload n ((i + 1480) % 2 ^ 16) =
        some (rest, res) := by
  have hok : ¬send (fragmentPacket src dst protocol identification payload i) < 0 :=
    Int.not_lt.mpr (hsend _)
  rw [fragmentLoop, if_pos hlt] at h
  dsimp only at h
  rw [if_neg hok, Option.bind_eq_bind, Option.bind_eq_some_iff] at h
  obtain ⟨⟨rest, res'⟩, hrest, h⟩ := h
  obtain ⟨rfl, rfl⟩ := Prod.mk.inj (Option.some.inj h)
  exact ⟨rest, rfl, hrest⟩

theorem fragmentLoop_done {n i : Nat} {packets : List (List UInt8)} {res : Int}
    (hge : payload.length ≤ i)
    (h : fragmentLoop send src dst protocol identification payload n i = some (packets, res)) :
    packets = [] ∧ res = 0 := by
  cases n with
  | zero => cases h
  | succ n =>
      rw [fragmentLoop, if_neg (Nat.not_lt.mpr hge)] at h
      obtain ⟨rfl, rfl⟩ := Prod.mk.inj (Option.some.inj h)
      exact ⟨rfl, rfl⟩

theorem fragmentLoop_tiles (hsend : ∀ packet, 0 ≤ send packet) (hlen : payload.length ≤ 65120) :
    ∀ {n i : Nat} {packets : List (List UInt8)} {res : Int}, i % 1480 = 0 → i < payload.length →
      fragmentLoop send src dst protocol identification payload n i = some (packets, res) →
      res = 0 ∧ Tiles dst payload i packets
  | 0, _, _, _, _, _, h => by cases h
  | n + 1, i, packets, res, hi, hlt, h => by
      obtain ⟨rest, rfl, hrest⟩ := fragmentLoop_round hsend hlt h
      rw [Nat.mod_eq_of_lt (show i + 1480 < 2 ^ 16 by omega)] at hrest
      have hcarries : Carries dst payload i
          (fragmentPacket src dst protocol identification payload i) :=
        carries_fragment (by omega) (by omega)
      have hlast : isLast (fragmentPacket src dst protocol identification payload i) = true ↔
          payload.length ≤ i + 1480 := isLast_fragment (by omega)
      have hsize : lengthOf (fragmentPacket src dst protocol identification payload i) =
          min 1480 (payload.length - i) := lengthOf_fragment
      by_cases hmore : i + 1480 < payload.length
      · have hfull : lengthOf (fragmentPacket src dst protocol identification payload i) =
            1480 := by omega
        have hnot : isLast (fragmentPacket src dst protocol identification payload i) =
            false := by
          rw [← Bool.not_eq_true, hlast]
          omega
        obtain ⟨hzero, htail⟩ := fragmentLoop_tiles hsend hlen (by omega) hmore hrest
        rw [← hfull] at htail
        exact ⟨hzero, Tiles.more hcarries hnot (by omega) htail⟩
      · obtain ⟨rfl, rfl⟩ := fragmentLoop_done (by omega) hrest
        exact ⟨rfl, Tiles.last hcarries (hlast.mpr (by omega)) (by omega)⟩

/-- Above, the counter begins again behind the fragment that was to be the last. -/
theorem fragmentLoop_not_tiles (hsend : ∀ packet, 0 ≤ send packet)
    (hlen : 65120 < payload.length) (hmax : payload.length ≤ 66600) :
    ∀ {n i : Nat} {packets : List (List UInt8)} {res : Int}, i % 1480 = 0 → i ≤ 65120 →
      fragmentLoop send src dst protocol identification payload n i = some (packets, res) →
      ¬Tiles dst payload i packets
  | 0, _, _, _, _, _, h => by cases h
  | n + 1, i, packets, res, hi, hle, h => by
      obtain ⟨rest, rfl, hrest⟩ := fragmentLoop_round hsend (by omega) h
      have hlast : isLast (fragmentPacket src dst protocol identification payload i) = true ↔
          payload.length ≤ i + 1480 := isLast_fragment (by omega)
      intro htiles
      cases htiles with
      | last _ hset hend =>
          -- the loop is not done, so this was not the last packet
          cases n with
          | zero => cases hrest
          | succ n =>
              obtain ⟨_, hagain, -⟩ := fragmentLoop_round hsend (by omega) hrest
              cases hagain
      | more _ hset _ htail =>
          have hmore : ¬payload.length ≤ i + 1480 := by
            rw [← hlast, hset]
            exact Bool.false_ne_true
          have hfull : lengthOf (fragmentPacket src dst protocol identification payload i) =
              1480 := by
            rw [lengthOf_fragment, fragmentSize]
            omega
          rw [hfull] at htail
          rw [Nat.mod_eq_of_lt (show i + 1480 < 2 ^ 16 by omega)] at hrest
          exact fragmentLoop_not_tiles hsend hlen hmax (by omega) (by omega) hrest htail

/-- One packet for the whole payload is too long by the header. -/
theorem single_tiles_iff (hlen : payload.length ≤ 1500) :
    Tiles dst payload 0 [sealedHeader (ipHeaderLen + payload.length) identification ipFlagDf
        protocol src dst ++ payload] ↔ payload.length ≤ 1480 := by
  have hlt : ipHeaderLen + payload.length < 2 ^ 16 := by
    unfold ipHeaderLen
    omega
  constructor
  · intro htiles
    have hcarries : Carries dst payload 0 (sealedHeader (ipHeaderLen + payload.length)
        identification ipFlagDf protocol src dst ++ payload) := by
      cases htiles with
      | last hcarries => exact hcarries
      | more hcarries => exact hcarries
    have htotal := hcarries.total
    rw [wordAt_totalLength _ _ _ _ _ _ _ hlt] at htotal
    unfold ipHeaderLen mtu at htotal
    omega
  · intro hshort
    refine Tiles.last (carries_sealed ?_ (by decide) rfl (by simp)) ?_ ?_
    · unfold ipHeaderLen mtu
      omega
    · rw [isLast, wordAt_flagsOffset _ _ _ _ _ _ _ (by decide)]
      rfl
    · rw [lengthOf_sealed hlt, Nat.zero_add, Nat.add_sub_cancel_left]

end Loop

/-- When every packet is taken, the packets of a payload of at most 65515 bytes tile it
exactly when it fits in one packet with its header, or is cut and the counter of the cuts
does not run over. -/
theorem ip_send_tiles_iff {send : List UInt8 → Int} (hsend : ∀ packet, 0 ≤ send packet)
    (src dst : IpAddr) (protocol identification : Nat) {payload : List UInt8}
    (hlen : payload.length ≤ 65515) :
    (∃ rounds packets res, ipSend send src dst protocol identification payload rounds =
        some (packets, res) ∧ 0 ≤ res ∧ Tiles dst payload 0 packets) ↔
      payload.length ≤ 1480 ∨ (1500 < payload.length ∧ payload.length ≤ 65120) := by
  simp only [ipSend]
  by_cases hcut : 1500 < payload.length
  · simp only [if_pos hcut]
    constructor
    · rintro ⟨rounds, packets, res, hsent, -, htiles⟩
      refine .inr ⟨hcut, Nat.not_lt.mp fun hlong => ?_⟩
      exact fragmentLoop_not_tiles hsend hlong (by omega) rfl (Nat.zero_le _) hsent htiles
    · intro hcond
      have hshort : payload.length ≤ 65120 := by omega
      obtain ⟨packets, res, hsent⟩ : ∃ packets res, fragmentLoop send src dst protocol
          identification payload 45 0 = some (packets, res) :=
        fragmentLoop_ends hshort (by omega) rfl
      obtain ⟨rfl, htiles⟩ := fragmentLoop_tiles hsend hshort rfl (by omega) hsent
      exact ⟨45, packets, 0, hsent, Int.le_refl 0, htiles⟩
  · simp only [if_neg hcut]
    have hsingle : Tiles dst payload 0 [sealedHeader (ipHeaderLen + payload.length) identification
        ipFlagDf protocol src dst ++ payload] ↔ payload.length ≤ 1480 :=
      single_tiles_iff (by omega)
    constructor
    · rintro ⟨rounds, packets, res, hsent, -, htiles⟩
      obtain ⟨rfl, -⟩ := Prod.mk.inj (Option.some.inj hsent)
      exact .inl (hsingle.mp htiles)
    · intro hcond
      exact ⟨0, _, _, rfl, hsend _, hsingle.mpr (by omega)⟩

/-- The longest payload that is cut. -/
theorem ip_send_tiles_iff_longest : ∃ rounds packets res,
    ipSend (fun _ => 0) ⟨10, 0, 0, 1⟩ ⟨10, 0, 0, 2⟩ ipProtoUdp 1 (List.replicate 65120 0) rounds =
        some (packets, res) ∧
      0 ≤ res ∧ Tiles ⟨10, 0, 0, 2⟩ (List.replicate 65120 0) 0 packets := by
  have hlen : (List.replicate 65120 (0 : UInt8)).length = 65120 := List.length_replicate
  refine (ip_send_tiles_iff (fun _ => Int.le_refl 0) _ _ _ _ ?_).mpr (.inr ⟨?_, ?_⟩) <;>
    rw [hlen] <;> decide

/-- 1481 bytes go out in a packet of 1501, and the packets of 65121 bytes do not end where
the payload does. -/
theorem ip_send_over_mtu :
    (∃ packet, (∀ rounds, ipSend (fun _ => 0) ⟨10, 0, 0, 1⟩ ⟨10, 0, 0, 2⟩ ipProtoUdp 1
        (List.replicate 1481 0) rounds = some ([packet], 0)) ∧ wordAt packet 2 = 1501 ∧
      ¬Tiles ⟨10, 0, 0, 2⟩ (List.replicate 1481 0) 0 [packet]) ∧
    ∀ rounds packets res, ipSend (fun _ => 0) ⟨10, 0, 0, 1⟩ ⟨10, 0, 0, 2⟩ ipProtoUdp 1
        (List.replicate 65121 0) rounds = some (packets, res) →
      ¬Tiles ⟨10, 0, 0, 2⟩ (List.replicate 65121 0) 0 packets := by
  have hover : (List.replicate 1481 (0 : UInt8)).length = 1481 := List.length_replicate
  have hlong : (List.replicate 65121 (0 : UInt8)).length = 65121 := List.length_replicate
  constructor
  · refine ⟨sealedHeader (ipHeaderLen + (List.replicate 1481 (0 : UInt8)).length) 1 ipFlagDf
      ipProtoUdp ⟨10, 0, 0, 1⟩ ⟨10, 0, 0, 2⟩ ++ List.replicate 1481 0, fun rounds => ?_, ?_,
        fun htiles => ?_⟩
    · rw [ipSend, if_neg (by omega)]
    · refine (wordAt_totalLength _ _ _ _ _ _ _ ?_).trans ?_
      · rw [hover]
        decide
      · rw [hover]
        rfl
    · have hfits := (single_tiles_iff (by omega)).mp htiles
      omega
  · intro rounds packets res hsent
    rw [ipSend, if_pos (by omega)] at hsent
    exact fragmentLoop_not_tiles (fun _ => Int.le_refl 0) (by omega) (by omega) rfl
      (Nat.zero_le _) hsent

end GlitchedOS
