/-
The buffer of received datagrams is a log.  `recvfrom` never frees an entry, so the entries
are the datagrams accepted since the start, in the order they came, as long as there is
room; and what a port reads is the first of them that is for it.
-/
import GlitchedOS.Net.Delivery
import GlitchedOS.Net.UdpSend

namespace GlitchedOS

/-- A datagram as `recvfrom` returns it, with the port it is for. -/
structure UdpEntry where
  sender : SockAddr
  port : UInt16
  data : List UInt8
deriving Repr, DecidableEq

/-- The datagram in a packet of `len` bytes. -/
def storedFrom (packet : Nat → UInt8) (sender : IpAddr) (len : Nat) : UdpEntry where
  sender := ⟨UInt8.ofNat 1, sender, UInt16.ofNat (memWord packet 0)⟩
  port := UInt16.ofNat (memWord packet 2)
  data := (List.range (len - udpHeaderSize)).map fun a => packet (udpHeaderSize + a)

instance decidableUdpAccepted (packet : Nat → UInt8) (sender dest : IpAddr) (len : Nat) :
    Decidable (UdpAccepted packet sender dest len) :=
  decidable_of_iff (udpHeaderSize ≤ len ∧ memWord packet 4 = len ∧
    memWord packet 6 = udpChecksum sender dest (zeroChecksum packet) len)
    ⟨fun h => ⟨h.1, h.2.1, h.2.2⟩, fun h => ⟨h.header, h.length, h.checksum⟩⟩

/-- The log after a packet: it is added if it passes the checks, its port is open and there
is room. -/
def logAfter (isOpen : UInt16 → Bool) (log : List UdpEntry) (packet : Nat → UInt8)
    (sender dest : IpAddr) (len : Nat) : List UdpEntry :=
  if UdpAccepted packet sender dest len ∧ isOpen (UInt16.ofNat (memWord packet 2)) = true ∧
      log.length < udpBufferSize then
    log ++ [storedFrom packet sender len]
  else log

def readLog (log : List UdpEntry) (port : UInt16) (len : Nat) :
    Except Int (List UInt8 × SockAddr) :=
  match log.find? fun d => d.port = port with
  | none => .error eAgain
  | some d => .ok (d.data.take len, d.sender)

namespace Net

/-- The entry `i` of the buffer holds the datagram. -/
structure HoldsAt (n : Net) (i : Nat) (d : UdpEntry) : Prop where
  sender : n.senderAt i = d.sender
  port : n.destPortAt i = d.port.toNat
  length : n.lengthAt i = udpHeaderSize + d.data.length
  fits : d.data.length ≤ udpMaxDataSize
  data : ∀ a < d.data.length, n.packetBuffer (udpSlotSize * i + 12 + a) = d.data.getD a 0

/-- The buffer holds the log, from its start on, and nothing else. -/
structure Logs (n : Net) (log : List UdpEntry) : Prop where
  length : log.length ≤ udpBufferSize
  holds : ∀ i d, log[i]? = some d → n.HoldsAt i d
  free : ∀ i, log.length ≤ i → n.lengthAt i = 0 ∨ udpBufferSize ≤ i

variable {n n' : Net} {log : List UdpEntry}

theorem HoldsAt.congr {i : Nat} {d : UdpEntry} (h : n.HoldsAt i d)
    (hsame : ∀ a < udpSlotSize, n'.packetBuffer (udpSlotSize * i + a) =
      n.packetBuffer (udpSlotSize * i + a)) : n'.HoldsAt i d := by
  have hword : ∀ a, a + 1 < udpSlotSize → memWord n'.packetBuffer (udpSlotSize * i + a) =
      memWord n.packetBuffer (udpSlotSize * i + a) := by
    intro a ha
    rw [memWord, memWord, hsame a (by omega), Nat.add_assoc, hsame (a + 1) ha]
  have hfits := h.fits
  constructor
  · rw [← h.sender, senderAt, senderAt, srcPortAt, srcPortAt, hword 4 (by decide)]
    have h0 := hsame 0 (by decide)
    rw [Nat.add_zero] at h0
    simp only [h0, hsame 1 (by decide), hsame 2 (by decide), hsame 3 (by decide)]
  · rw [← h.port, destPortAt, destPortAt, hword 6 (by decide)]
  · rw [← h.length, lengthAt, lengthAt, hword 8 (by decide)]
  · exact hfits
  · intro a ha
    rw [← h.data a ha, Nat.add_assoc]
    refine hsame (12 + a) ?_
    unfold udpMaxDataSize at hfits
    unfold udpSlotSize
    omega

theorem storePacket_entry (n : Net) (i : Nat) (sender : IpAddr) (packet : Nat → UInt8)
    (len : Nat) {a : Nat} (ha : a < len) :
    (n.storePacket i sender packet len).packetBuffer (udpSlotSize * i + (4 + a)) = packet a := by
  rw [storePacket]
  dsimp only
  rw [if_pos ⟨by omega, by omega⟩]
  congr 1
  omega

theorem storePacket_address (n : Net) (i : Nat) (sender : IpAddr) (packet : Nat → UInt8)
    (len : Nat) {a : Nat} (ha : a < 4) :
    (n.storePacket i sender packet len).packetBuffer (udpSlotSize * i + a) =
      [sender.b0, sender.b1, sender.b2, sender.b3].getD a 0 := by
  rw [storePacket]
  dsimp only
  rw [if_neg (by omega), if_pos ⟨by omega, by omega⟩, Nat.add_sub_cancel_left]

theorem storePacket_other (n : Net) {i j : Nat} (sender : IpAddr) (packet : Nat → UInt8)
    {len : Nat} (hfits : len ≤ 1480) (hne : j ≠ i) {a : Nat} (ha : a < udpSlotSize) :
    (n.storePacket i sender packet len).packetBuffer (udpSlotSize * j + a) =
      n.packetBuffer (udpSlotSize * j + a) := by
  unfold udpSlotSize at *
  rw [storePacket]
  dsimp only
  unfold udpSlotSize
  rw [if_neg (by omega), if_neg (by omega)]

theorem storePacket_holdsAt (n : Net) (i : Nat) {sender dest : IpAddr} {packet : Nat → UInt8}
    {len : Nat} (haccepted : UdpAccepted packet sender dest len) (hfits : len ≤ 1480) :
    (n.storePacket i sender (zeroChecksum packet) len).HoldsAt i
      (storedFrom packet sender len) := by
  have hheader : 8 ≤ len := haccepted.header
  have hword : ∀ k ≤ 4, memWord (n.storePacket i sender (zeroChecksum packet) len).packetBuffer
      (udpSlotSize * i + 4 + k) = memWord (zeroChecksum packet) k := fun k hk => by
    rw [storePacket_word hheader hfits hk, if_pos rfl]
  have haddress : ∀ a < 4, _ := fun a ha =>
    storePacket_address n i sender (zeroChecksum packet) len ha
  have hlength : (storedFrom packet sender len).data.length = len - udpHeaderSize := by
    rw [storedFrom, List.length_map, List.length_range]
  constructor
  · have h0 := haddress 0 (by decide)
    rw [Nat.add_zero] at h0
    have hport : srcPortAt _ i = memWord (zeroChecksum packet) 0 := hword 0 (by decide)
    rw [senderAt, hport]
    simp only [h0, haddress 1 (by decide), haddress 2 (by decide), haddress 3 (by decide)]
    rfl
  · refine (hword 2 (by decide)).trans ?_
    exact (UInt16.toNat_ofNat_of_lt (memWord_lt packet 2)).symm
  · refine (hword 4 (by decide)).trans ?_
    have hfield : memWord (zeroChecksum packet) 4 = memWord packet 4 := rfl
    rw [hfield, haccepted.length, hlength, udpHeaderSize]
    omega
  · rw [hlength, udpHeaderSize, udpMaxDataSize]
    omega
  · intro a ha
    rw [hlength, udpHeaderSize] at ha
    have hbyte := storePacket_entry n i sender (zeroChecksum packet) len
      (show udpHeaderSize + a < len by rw [udpHeaderSize]; omega)
    have hplace : udpSlotSize * i + 12 + a = udpSlotSize * i + (4 + (udpHeaderSize + a)) := by
      rw [udpHeaderSize]
      omega
    have hclear : ¬(udpHeaderSize + a = 6 ∨ udpHeaderSize + a = 7) := by
      rw [udpHeaderSize]
      omega
    rw [hplace, hbyte, zeroChecksum, if_neg hclear, storedFrom, List.getD_eq_getElem?_getD,
      List.getElem?_map, List.getElem?_range (by rw [udpHeaderSize]; omega)]
    rfl

theorem Logs.congr (h : n.Logs log) (hsame : n'.packetBuffer = n.packetBuffer) :
    n'.Logs log where
  length := h.length
  holds := fun i d hd => (h.holds i d hd).congr fun a _ => by rw [hsame]
  free := fun i hi => by
    rw [lengthAt_congr hsame]
    exact h.free i hi

theorem Logs.lengthAt_eq_zero (h : n.Logs log) {i : Nat} (hi : i < udpBufferSize) :
    n.lengthAt i = 0 ↔ log.length ≤ i := by
  constructor
  · intro hzero
    by_contra hlt
    have hlength := (h.holds i _ (List.getElem?_eq_getElem (by omega))).length
    rw [udpHeaderSize] at hlength
    omega
  · intro hle
    exact (h.free i hle).resolve_right (by omega)

/-- The first free entry is the one behind the log. -/
theorem Logs.find_free (h : n.Logs log) :
    ((List.range udpBufferSize).find? fun i => n.lengthAt i = 0) =
      if log.length < udpBufferSize then some log.length else none := by
  split
  · rename_i hroom
    rw [List.find?_range_eq_some]
    refine ⟨?_, List.mem_range.mpr hroom, fun j hj => ?_⟩
    · simpa using (h.lengthAt_eq_zero hroom).mpr (Nat.le_refl _)
    · have hne := (h.lengthAt_eq_zero (show j < udpBufferSize by omega)).not.mpr (by omega)
      simpa using hne
  · rename_i hfull
    rw [List.find?_eq_none]
    intro i hi
    have hlt := List.mem_range.mp hi
    have hne := (h.lengthAt_eq_zero hlt).not.mpr (by omega)
    simpa using hne

theorem Logs.receiveSlot_eq (h : n.Logs log) {packet : Nat → UInt8} {sender dest : IpAddr}
    {len : Int} : n.receiveSlot packet sender dest len =
      if UdpAccepted packet sender dest len.toNat ∧
          n.portsOpen (UInt16.ofNat (memWord packet 2)) = true ∧ log.length < udpBufferSize then
        some log.length
      else none := by
  have hchecks : UdpAccepted packet sender dest len.toNat ↔ ¬len < udpHeaderSize ∧
      ¬(memWord packet 4 : Int) ≠ len ∧
      ¬memWord packet 6 ≠ udpChecksum sender dest (zeroChecksum packet) len.toNat := by
    constructor
    · intro haccepted
      have hheader := haccepted.header
      have hlength := haccepted.length
      rw [udpHeaderSize] at *
      exact ⟨by omega, by omega, not_not.mpr haccepted.checksum⟩
    · rintro ⟨hheader, hlength, hchecksum⟩
      rw [udpHeaderSize] at hheader
      exact ⟨by rw [udpHeaderSize]; omega, by omega, not_not.mp hchecksum⟩
  rw [receiveSlot, h.find_free]
  simp only [hchecks, ite_and, ite_not, ne_eq]

/-- A packet that comes is logged. -/
theorem Logs.udpReceived (h : n.Logs log) (packet : Nat → UInt8) (sender dest : IpAddr)
    {len : Int} (hfits : len ≤ 1480) : (n.udpReceived packet sender dest len).Logs
      (logAfter n.portsOpen log packet sender dest len.toNat) := by
  have hslot : n.receiveSlot packet sender dest len = _ := h.receiveSlot_eq
  rw [logAfter]
  split
  swap
  · rename_i hnot
    rw [if_neg hnot] at hslot
    rw [Net.udpReceived, hslot]
    exact h
  rename_i hlogged
  rw [if_pos hlogged] at hslot
  obtain ⟨haccepted, -, hroom⟩ := hlogged
  have hsmall : len.toNat ≤ 1480 := by omega
  constructor
  · rw [List.length_append, List.length_singleton]
    omega
  · intro i d hd
    rw [Net.udpReceived, hslot]
    rcases Nat.lt_or_ge i log.length with hlt | hle
    · rw [List.getElem?_append_left hlt] at hd
      refine (h.holds i d hd).congr fun a ha => ?_
      exact storePacket_other n sender _ hsmall (by omega) ha
    · rw [List.getElem?_append_right hle, List.getElem?_singleton] at hd
      split at hd
      · obtain rfl : i = log.length := by omega
        rw [← Option.some.inj hd]
        exact storePacket_holdsAt n log.length haccepted hsmall
      · cases hd
  · intro i hi
    rw [List.length_append, List.length_singleton] at hi
    rw [(udpReceived_words hslot hfits i).1, if_neg (by omega)]
    exact h.free i (by omega)

/-- The entries that a port finds are those of the datagrams for it. -/
theorem Logs.finds_iff (h : n.Logs log) {i : Nat} (hi : i < udpBufferSize) (port : UInt16) :
    (n.lengthAt i ≠ 0 ∧ n.destPortAt i = port.toNat) ↔ ∃ d, log[i]? = some d ∧ d.port = port := by
  rw [ne_eq, h.lengthAt_eq_zero hi, Nat.not_le]
  constructor
  · rintro ⟨hlt, hport⟩
    refine ⟨log[i], List.getElem?_eq_getElem hlt, ?_⟩
    rw [(h.holds i _ (List.getElem?_eq_getElem hlt)).port] at hport
    exact UInt16.toNat_inj.mp hport
  · rintro ⟨d, hd, rfl⟩
    exact ⟨(List.getElem?_eq_some_iff.mp hd).1, (h.holds i d hd).port⟩

theorem HoldsAt.payloadAt_eq {i : Nat} {d : UdpEntry} (h : n.HoldsAt i d) (len : Nat) :
    n.payloadAt i len = d.data.take len := by
  have hfits := h.fits
  have hsize : (n.lengthAt i + 2 ^ 64 - udpHeaderSize) % 2 ^ 64 = d.data.length := by
    rw [h.length]
    unfold udpMaxDataSize at hfits
    unfold udpHeaderSize
    omega
  rw [payloadAt, hsize]
  apply List.ext_getElem
  · rw [List.length_map, List.length_range, List.length_take, Nat.min_comm]
  · intro a ha _
    rw [List.length_map, List.length_range] at ha
    rw [List.getElem_map, List.getElem_range, h.data a (by omega), List.getElem_take,
      List.getD_eq_getElem _ _ (by omega)]

theorem Logs.udpGetPacket_eq (h : n.Logs log) (port : UInt16) (len : Nat) (peek : BitVec 32) :
    (n.udpGetPacket port len peek).1 = readLog log port len := by
  unfold udpGetPacket readLog
  cases hfound : log.find? fun d => d.port = port with
  | none =>
      have hnone : n.findPacket port = none := by
        rw [findPacket, List.find?_eq_none]
        intro i hi hmatch
        rw [decide_eq_true_iff, h.finds_iff (List.mem_range.mp hi)] at hmatch
        obtain ⟨d, hd, hport⟩ := hmatch
        exact List.find?_eq_none.mp hfound d (List.mem_of_getElem? hd) (decide_eq_true hport)
      simp only [hnone]
  | some d =>
      obtain ⟨hport, i, hlt, hd, hbefore⟩ := List.find?_eq_some_iff_getElem.mp hfound
      have hget : log[i]? = some d := List.getElem?_eq_some_iff.mpr ⟨hlt, hd⟩
      have hlength := h.length
      have hsome : n.findPacket port = some i := by
        rw [findPacket, List.find?_range_eq_some, decide_eq_true_iff, h.finds_iff (by omega)]
        refine ⟨⟨d, hget, of_decide_eq_true hport⟩, List.mem_range.mpr (by omega), fun j hj => ?_⟩
        rw [Bool.not_eq_true', decide_eq_false_iff_not, h.finds_iff (by omega)]
        rintro ⟨e, he, hp⟩
        obtain ⟨hlt', rfl⟩ := List.getElem?_eq_some_iff.mp he
        simpa [hp] using hbefore j hj
      simp only [hsome, (h.holds i d hget).payloadAt_eq, (h.holds i d hget).sender]

theorem Logs.recvfrom_eq (h : n.Logs log) {s : Nat} (hs : n.isUdp s = true) (len : Nat)
    (flags : BitVec 32) : (n.recvfrom s len flags).1 = readLog log (n.readPort s) len := by
  have hlogs : (n.autoBind s).Logs log := h.congr (autoBind_packetBuffer s)
  unfold recvfrom
  rw [hs]
  simp only [Bool.not_true, Bool.false_eq_true, if_false]
  exact hlogs.udpGetPacket_eq _ len _

end Net

def logStep (st : Net × List UdpEntry) (op : NetOp) : Net × List UdpEntry :=
  (op.run st.1, match op with
    | .udpReceived packet sender dest len =>
        logAfter st.1.portsOpen st.2 packet sender dest len.toNat
    | _ => st.2)

theorem logAfter_keeps (isOpen : UInt16 → Bool) (log : List UdpEntry) (packet : Nat → UInt8)
    (sender dest : IpAddr) (len : Nat) :
    log <+: logAfter isOpen log packet sender dest len := by
  rw [logAfter]
  split
  · exact List.prefix_append _ _
  · exact List.prefix_refl _

theorem logStep_keeps (st : Net × List UdpEntry) (op : NetOp) : st.2 <+: (logStep st op).2 := by
  cases op with
  | udpReceived packet sender dest len => exact logAfter_keeps _ _ _ _ _ _
  | _ => exact List.prefix_refl _

/-- A call keeps the log in step with the buffer. -/
theorem logStep_logs {st : Net × List UdpEntry} {op : NetOp} (h : st.1.Logs st.2)
    (hfits : TracedNet.Fits op) : (logStep st op).1.Logs (logStep st op).2 := by
  cases op with
  | udpReceived packet sender dest len => exact h.udpReceived packet sender dest hfits
  | _ => exact h.congr (Net.run_packetBuffer fun _ _ _ _ heq => NetOp.noConfusion heq)

theorem zeroNet_logs : zeroNet.Logs [] where
  length := Nat.zero_le _
  holds := fun _ _ hd => by cases hd
  free := fun i _ => Or.inl (zeroNet_lengthAt i)

theorem logRun_logs {ops : List NetOp} (hfits : ∀ op ∈ ops, TracedNet.Fits op) :
    (ops.foldl logStep (zeroNet, [])).1.Logs (ops.foldl logStep (zeroNet, [])).2 :=
  List.foldlRecOn (motive := fun st => st.1.Logs st.2) ops logStep zeroNet_logs
    fun _ h op hop => logStep_logs h (hfits op hop)

theorem logRun_keeps (ops : List NetOp) (st : Net × List UdpEntry) :
    st.2 <+: (ops.foldl logStep st).2 := by
  induction ops generalizing st with
  | nil => exact List.prefix_refl _
  | cons op rest ih => exact (logStep_keeps st op).trans (ih (logStep st op))

theorem readLog_keeps {log log' : List UdpEntry} (h : log <+: log') {port : UInt16}
    {len : Nat} {answer : List UInt8 × SockAddr} (hread : readLog log port len = .ok answer) :
    readLog log' port len = .ok answer := by
  obtain ⟨rest, rfl⟩ := h
  unfold readLog at *
  cases hfound : log.find? fun d => d.port = port with
  | none =>
      rw [hfound] at hread
      cases hread
  | some d =>
      rw [hfound] at hread
      rw [List.find?_append, hfound]
      exact hread

/-- After any calls and packets the buffer is the log of the datagrams accepted: `recvfrom`
returns the oldest for its port, and whatever comes later, the port goes on returning it. -/
theorem udp_buffer_is_log {ops : List NetOp} (hfits : ∀ op ∈ ops, TracedNet.Fits op) :
    (ops.foldl logStep (zeroNet, [])).2.length ≤ udpBufferSize ∧
      (∀ s, (ops.foldl logStep (zeroNet, [])).1.isUdp s = true → ∀ len flags,
        ((ops.foldl logStep (zeroNet, [])).1.recvfrom s len flags).1 =
          readLog (ops.foldl logStep (zeroNet, [])).2
            ((ops.foldl logStep (zeroNet, [])).1.readPort s) len) ∧
      ∀ more port len answer,
        readLog (ops.foldl logStep (zeroNet, [])).2 port len = .ok answer →
        readLog ((ops ++ more).foldl logStep (zeroNet, [])).2 port len = .ok answer := by
  have hlogs := logRun_logs hfits
  refine ⟨hlogs.length, fun s hs len flags => hlogs.recvfrom_eq hs len flags, ?_⟩
  intro more port len answer hread
  rw [List.foldl_append]
  exact readLog_keeps (logRun_keeps more _) hread

/-- The packet of the example is returned to the second call, too. -/
theorem udp_buffer_is_log_asked :
    readLog (askedTwice.foldl logStep (zeroNet, [])).2 7 64 =
      .ok ([], ⟨1, ⟨10, 0, 0, 2⟩, 9⟩) := by
  have hfits : ∀ op ∈ askedOnce, TracedNet.Fits op := by
    simp [askedOnce, TracedNet.Fits]
  refine (udp_buffer_is_log hfits).2.2 [.recvfrom 0 64 0#32] 7 64 _ ?_
  have hlog : (askedOnce.foldl logStep (zeroNet, [])).2 =
      [⟨⟨1, ⟨10, 0, 0, 2⟩, 9⟩, 7, []⟩] := by
    decide
  rw [hlog]
  decide

end GlitchedOS
