/-
Datagrams between hosts.  A frame that a host has given to its driver may reach any host,
at any time and any number of times, or none; other traffic comes in between.
-/
import GlitchedOS.Net.Reception
import GlitchedOS.Net.Routes
import GlitchedOS.Net.UdpLog
import Mathlib.Tactic.IntervalCases

namespace GlitchedOS

def etherTypeIp : Nat := 0x0800

/-- The frame of `send_ethernet`: up to the least length it is filled with what lies on the
heap. -/
def ethernetFrame (srcMac dstMac : MacAddr) (ethertype : Nat) (payload : List UInt8)
    (heap : Nat → UInt8) : List UInt8 :=
  let bytes := [dstMac.b0, dstMac.b1, dstMac.b2, dstMac.b3, dstMac.b4, dstMac.b5, srcMac.b0,
    srcMac.b1, srcMac.b2, srcMac.b3, srcMac.b4, srcMac.b5, hiByte ethertype,
    loByte ethertype] ++ payload
  bytes ++ (List.range (60 - bytes.length)).map fun a => heap (bytes.length + a)

/-- A datagram given to the driver: the address in the header and the one in the checksum,
the port of the socket, where it goes, its data and the byte that lay behind it. -/
structure UdpSent where
  ip : IpAddr
  checksumIp : IpAddr
  port : UInt16
  dest : SockAddr
  data : List UInt8
  behind : UInt8

/-- The datagram as a host that accepts it stores it. -/
def UdpSent.entry (d : UdpSent) : UdpEntry := ⟨⟨UInt8.ofNat 1, d.ip, d.port⟩, d.dest.port, d.data⟩

/-- What a call of `sendto` finds: the stacks of `get_source_ip_for` and of `ip_send`, the
heap behind the packet and in the frame, the answer of ARP and the identification. -/
structure Surroundings where
  sourceStack : IpAddr
  stack : IpAddr
  packetHeap : Nat → UInt8
  frameHeap : Nat → UInt8
  arp : IpAddr → Int → Int × MacAddr
  identification : Nat

structure Carrier where
  frame : List UInt8
  datagram : UdpSent

/-- A host as it is set up: its addresses and routes, and `get_mac`. -/
structure HostConfig extends NetHost where
  mac : Int → MacAddr

/-- `udp_send` and `ip_send`: the result, and the frames given to the driver. -/
def HostConfig.udpSendTo (h : HostConfig) (around : Surroundings) (port : UInt16)
    (data : List UInt8) (dest : SockAddr) : Int × List Carrier :=
  let source := h.getSourceIpFor around.sourceStack dest.ip
  match udpSend source dest.ip port dest.port data around.packetHeap with
  | .error res => (res, [])
  | .ok (packet, size) =>
    match h.ipRoute around.arp around.stack dest.ip with
    | .error res => (res, [])
    | .ok out =>
      -- a datagram is one packet, so the loop over fragments has no round
      match ipSend (fun packet => sendEthernet packet.length) out.ip dest.ip ipProtoUdp
          around.identification ((List.range size).map packet) 0 with
      | none => (0, [])
      | some (packets, res) =>
        -- the result of `send_packet`, -ENODEV for a card that does not exist, is dropped
        (res, if h.Exists out.card then packets.map fun bytes =>
            ⟨ethernetFrame (h.mac out.card) out.dstMac etherTypeIp bytes around.frameHeap,
              ⟨out.ip, source, port, dest, data, packet size⟩⟩
          else [])

structure Hosts where
  net : Nat → Net
  reassembly : Nat → Reassembly
  wire : List Carrier

/-- What happens: a program sends a datagram or makes another call, the card of a host
receives one of the frames sent, or a frame that is not UDP. -/
inductive HostsEvent where
  | sendto (h s : Nat) (around : Surroundings) (data : List UInt8) (dest : SockAddr)
  | call (h : Nat) (op : NetOp)
  | receive (h : Nat) (ip : IpAddr) (k : Nat) (behind : Nat → UInt8)
  | other (h : Nat) (ip : IpAddr) (frame : List UInt8) (behind : Nat → UInt8)

namespace Hosts

variable (w : Hosts)

def afterFrame (h : Nat) (ip : IpAddr) (frame : List UInt8) (behind : Nat → UInt8) : Hosts :=
  let x := frameReceived (w.reassembly h) (w.net h) (placed frame behind) ip frame.length
  { w with reassembly := Function.update w.reassembly h x.reassembly
           net := Function.update w.net h x.net }

def step (config : Nat → HostConfig) (w : Hosts) : HostsEvent → Hosts
  | .sendto h s around data dest =>
      if !(w.net h).isUdp s then w
      else
        let net := (w.net h).sendto s
        { w with
          net := Function.update w.net h net
          wire := w.wire ++
            ((config h).udpSendTo around (net.sockets s).bindAddr.port data dest).2 }
  | .call h op => { w with net := Function.update w.net h (op.run (w.net h)) }
  | .receive h ip k behind =>
      match w.wire[k]? with
      | none => w
      | some c => w.afterFrame h ip c.frame behind
  | .other h ip frame behind => w.afterFrame h ip frame behind

/-- No datagram has been sent, and no host has received any. -/
def start (reassembly : Nat → Reassembly) : Hosts := ⟨fun _ => zeroNet, reassembly, []⟩

end Hosts

/-- The calls are those of programs, on cards that are there, and what else comes is not
UDP. -/
def HostsEvent.Possible (config : Nat → HostConfig) : HostsEvent → Prop
  | .sendto _ _ _ data _ => data.length < 2 ^ 31
  | .call _ op => (∀ packet sender dest len, op ≠ .udpReceived packet sender dest len) ∧
      ∀ s, op ≠ .sendto s
  | .receive h ip _ _ => ip ∈ (config h).interfaces
  | .other h ip frame behind => ip ∈ (config h).interfaces ∧
      (memWord (placed frame behind) 12 = etherTypeIp →
        (placed frame behind 23).toNat ≠ ipProtoUdp)

/-! ### One frame -/

section Reception

variable {r : Reassembly} {net : Net} {m : Nat → UInt8} {ip : IpAddr} {n : Nat}

theorem after_net (accesses : List Access) (rest : Received) :
    (Received.after accesses rest).net = rest.net := rfl

theorem receiveSlot_checks {packet : Nat → UInt8} {sender dest : IpAddr} {len : Int}
    (h : len < udpHeaderSize ∨ (memWord packet 4 : Int) ≠ len ∨
      memWord packet 6 ≠ udpChecksum sender dest (zeroChecksum packet) len.toNat) :
    net.receiveSlot packet sender dest len = none := by
  by_contra hne
  obtain ⟨hheader, hlength, hchecksum⟩ := Net.receiveSlot_valid hne
  rcases h with h | h | h
  · exact absurd hheader (Int.not_le.mpr h)
  · exact h hlength
  · exact h hchecksum

variable (r net m) in
theorem udpReceivedAt_net (place : Place) (packet : Nat → UInt8) (len : Int) :
    (udpReceivedAt r net m place packet len).net =
      net.udpReceived packet (sourceAt m) (destAt m) len := by
  have hdropped : net.receiveSlot packet (sourceAt m) (destAt m) len = none →
      net.udpReceived packet (sourceAt m) (destAt m) len = net := fun h => by
    rw [Net.udpReceived, h]
  unfold udpReceivedAt
  split
  · exact (hdropped (receiveSlot_checks (Or.inl ‹_›))).symm
  rw [after_net]
  split
  · exact (hdropped (receiveSlot_checks (Or.inr (Or.inl ‹_›)))).symm
  rw [after_net]
  split
  · exact (hdropped (receiveSlot_checks (Or.inr (Or.inr ‹_›)))).symm
  rw [after_net]
  split
  · exact (hdropped ‹_›).symm
  · rfl

/-- A frame that carries no UDP leaves the buffer alone. -/
theorem frameReceived_other (hother : memWord m 12 = etherTypeIp → (m 23).toNat ≠ ipProtoUdp) :
    (frameReceived r net m ip n).net = net := by
  rw [frameReceived]
  split
  swap
  · rfl
  rename_i hip
  have hnot : (m 23).toNat ≠ ipProtoUdp := hother hip.2
  have hhandle : ∀ r' place packet len,
      (handleProtocol r' net m place packet len).net = net := by
    intro r' place packet len
    rw [handleProtocol, if_neg hnot]
    rfl
  have hpayload : (receivePayloadAt r net m).net = net := by
    cases hfind : findSlot r.ids (memWord m 18) 12 0 <;>
      simp only [receivePayloadAt, hfind, after_net, apply_ite Received.net, hhandle, ite_self]
  simp only [ipReceivedAt, after_net, apply_ite Received.net, hpayload, ite_self]

section Datagram

variable {total identification : Nat} {src dst : IpAddr}
  (hheader : ∀ a < ipHeaderLen, m (ipBase + a) =
    (sealedHeader total identification ipFlagDf ipProtoUdp src dst).getD a 0)

include hheader

theorem fields_sealed :
    sourceAt m = src ∧ destAt m = dst ∧ ihlAt m = 5 ∧ versionAt m = 4 := by
  have hbyte : ∀ a < ipHeaderLen, m (14 + a) = _ := hheader
  have hfirst : m 14 = 0x45 := hbyte 0 (by decide)
  refine ⟨?_, ?_, ?_, ?_⟩
  · rw [sourceAt, hbyte 12 (by decide), hbyte 13 (by decide), hbyte 14 (by decide),
      hbyte 15 (by decide)]
    rfl
  · rw [destAt, hbyte 16 (by decide), hbyte 17 (by decide), hbyte 18 (by decide),
      hbyte 19 (by decide)]
    rfl
  · rw [ihlAt, ipBase, hfirst]
    rfl
  · rw [versionAt, ipBase, hfirst]
    rfl

theorem memWord_sealed {a : Nat} (ha : a + 1 < ipHeaderLen) : memWord m (ipBase + a) =
    wordAt (sealedHeader total identification ipFlagDf ipProtoUdp src dst) a := by
  rw [memWord, hheader a (by omega), Nat.add_assoc, hheader (a + 1) ha]
  rfl

theorem headerChecksum_sealed : headerChecksum m =
    ipChecksum (ipHeader total identification ipFlagDf ipProtoUdp 0 src dst) 10 := by
  have hzero : ∀ a < ipHeaderLen, zeroHeaderChecksum m (ipBase + a) =
      (ipHeader total identification ipFlagDf ipProtoUdp 0 src dst).getD a 0 := by
    intro a ha
    by_cases hfield : a = 10 ∨ a = 11
    · rcases hfield with rfl | rfl <;> rfl
    · rw [zeroHeaderChecksum, if_neg (by rw [ipBase]; omega), hheader a ha]
      unfold ipHeaderLen at ha
      rw [not_or] at hfield
      interval_cases a <;> first | rfl | exact absurd rfl hfield.1 | exact absurd rfl hfield.2
  have hwords : ((List.range 10).map fun i =>
      memWord (zeroHeaderChecksum m) (ipBase + 2 * i)) = (List.range 10).map fun i =>
        wordAt (ipHeader total identification ipFlagDf ipProtoUdp 0 src dst) (2 * i) := by
    refine List.map_congr_left fun i hi => ?_
    have hlt := List.mem_range.mp hi
    rw [memWord, hzero _ (by rw [ipHeaderLen]; omega), Nat.add_assoc,
      hzero _ (by rw [ipHeaderLen]; omega)]
    rfl
  rw [headerChecksum, (fields_sealed hheader).2.2.1, ipChecksum, ← hwords]

/-- A datagram in a frame goes to `udp_received` on the host it is for. -/
theorem frameReceived_sealed (r : Reassembly) (net : Net) (ip : IpAddr) {size : Nat}
    (htotal : total = ipHeaderLen + size) (hsize : size ≤ 1480)
    (htype : memWord m 12 = etherTypeIp) (hn : 0 < n) :
    (frameReceived r net m ip n).net = if dst = ip ∨ dst = ipBroadcastAddr then
      net.udpReceived (fun a => m (34 + a)) src dst size else net := by
  obtain ⟨hsource, hdest, hihl, hversion⟩ := fields_sealed hheader
  have hlength : payloadLengthAt m = size := by
    have hword : memWord m 16 = total :=
      (memWord_sealed hheader (a := 2) (by decide)).trans
        (hiByte_loByte (by rw [htotal, ipHeaderLen]; omega))
    rw [payloadLengthAt, hihl, hword, htotal, ipHeaderLen]
    omega
  have hflags : memWord m 20 &&& ipFlagDf ≠ 0 := by
    have hword : memWord m 20 = ipFlagDf :=
      (memWord_sealed hheader (a := 6) (by decide)).trans (hiByte_loByte (by decide))
    rw [hword]
    decide
  have hprotocol : (m 23).toNat = ipProtoUdp := by
    have h : m 23 = UInt8.ofNat ipProtoUdp := hheader 9 (by decide)
    rw [h]
    rfl
  have hplace : payloadAt m = 34 := by
    rw [payloadAt, hihl, ipBase]
  have hchecksum : memWord m 24 = headerChecksum m := by
    rw [headerChecksum_sealed hheader]
    exact (memWord_sealed hheader (a := 10) (by decide)).trans
      (hiByte_loByte (ipChecksum_lt _ _))
  have hpayload : (receivePayloadAt r net m).net =
      net.udpReceived (fun a => m (34 + a)) src dst size := by
    rw [receivePayloadAt, if_pos hflags, handleProtocol, if_pos hprotocol, hplace, hlength,
      after_net, after_net, udpReceivedAt_net, hsource, hdest]
  rw [frameReceived, if_pos ⟨hn, htype⟩, ipReceivedAt, hversion, hihl, hdest, if_neg (by decide),
    after_net, after_net]
  by_cases hdst : dst = ip ∨ dst = ipBroadcastAddr
  · rw [if_neg (not_and_or.mpr (hdst.imp not_not.mpr not_not.mpr)), if_neg (not_not.mpr hchecksum),
      if_pos hdst]
    exact hpayload
  · rw [if_pos (not_or.mp hdst), if_neg hdst]

end Datagram

end Reception

/-! ### What is in a frame -/

/-- The frame holds its datagram as `udp_send` and `ip_send` built it. -/
def Carrier.Built (c : Carrier) : Prop :=
  ∃ heap packet size srcMac dstMac identification padding,
    udpSend c.datagram.checksumIp c.datagram.dest.ip c.datagram.port c.datagram.dest.port
      c.datagram.data heap = .ok (packet, size) ∧ packet size = c.datagram.behind ∧
    c.frame = ethernetFrame srcMac dstMac etherTypeIp
      (sealedHeader (ipHeaderLen + size) identification ipFlagDf ipProtoUdp c.datagram.ip
        c.datagram.dest.ip ++ (List.range size).map packet) padding

section Frame

variable {ip dest : IpAddr} {srcPort destPort : UInt16} {data : List UInt8}
  {heap packet behind : Nat → UInt8} {size : Nat} {c : Carrier}

/-- The packet of `udp_send`: its size, and its bytes outside of the checksum. -/
theorem udpSend_ok (h : udpSend ip dest srcPort destPort data heap = .ok (packet, size)) :
    data.length ≤ udpMaxDataSize ∧ size = udpHeaderSize + data.length ∧
      ∃ checksum, packet = placed (udpHeader srcPort destPort size checksum ++ data) heap := by
  rw [udpSend] at h
  split at h
  · cases h
  rename_i hfits
  obtain ⟨rfl, rfl⟩ := Prod.mk.inj (Except.ok.inj h)
  exact ⟨Nat.not_lt.mp hfits, rfl, _, rfl⟩

theorem storedFrom_sent (h : udpSend ip dest srcPort destPort data heap = .ok (packet, size))
    {received : Nat → UInt8} (hreceived : ∀ a < size, received a = packet a) (sender : IpAddr) :
    storedFrom received sender size = ⟨⟨UInt8.ofNat 1, sender, srcPort⟩, destPort, data⟩ := by
  obtain ⟨hfits, hsize, checksum, rfl⟩ := udpSend_ok h
  unfold udpHeaderSize at hsize
  have hheader : ∀ a < udpHeaderSize, received a =
      (udpHeader srcPort destPort size checksum).getD a 0 := fun a ha => by
    rw [hreceived a (by rw [udpHeaderSize] at ha; omega), placed_header ha]
  have hword : ∀ port : UInt16, UInt16.ofNat ((hiByte port.toNat).toNat * 256 +
      (loByte port.toNat).toNat) = port := fun port => by
    rw [hiByte_loByte port.toNat_lt]
    exact UInt16.ofNat_toNat
  have hsource : UInt16.ofNat (memWord received 0) = srcPort := by
    rw [memWord, hheader 0 (by decide), hheader 1 (by decide)]
    exact hword srcPort
  have hdest : UInt16.ofNat (memWord received 2) = destPort := by
    rw [memWord, hheader 2 (by decide), hheader 3 (by decide)]
    exact hword destPort
  have hdata : (List.range (size - udpHeaderSize)).map
      (fun a => received (udpHeaderSize + a)) = data := by
    apply List.ext_getElem
    · rw [List.length_map, List.length_range, udpHeaderSize]
      omega
    · intro a _ ha
      have hlength : (udpHeader srcPort destPort size checksum).length = udpHeaderSize := rfl
      rw [List.getElem_map, List.getElem_range,
        hreceived _ (by rw [udpHeaderSize]; omega), placed,
        if_pos (by rw [List.length_append, hlength]; omega),
        List.getD_append_right _ _ _ _ (by rw [hlength]; omega), hlength,
        Nat.add_sub_cancel_left, List.getD_eq_getElem _ _ ha]
  rw [storedFrom, hsource, hdest, hdata]

theorem placed_ethernetFrame (srcMac dstMac : MacAddr) (ethertype : Nat) {payload : List UInt8}
    (padding behind : Nat → UInt8) {a : Nat} (ha : a < payload.length) :
    placed (ethernetFrame srcMac dstMac ethertype payload padding) behind (14 + a) =
      payload.getD a 0 := by
  rw [placed, ethernetFrame]
  rw [if_pos (by simp only [List.length_append, List.length_cons, List.length_nil]; omega),
    List.getD_append _ _ _ _ (by
      simp only [List.length_append, List.length_cons, List.length_nil]; omega),
    List.getD_append_right _ _ _ _ (by simp)]
  congr 1
  simp

theorem memWord_ethertype (srcMac dstMac : MacAddr) {ethertype : Nat} (h : ethertype < 2 ^ 16)
    (payload : List UInt8) (padding behind : Nat → UInt8) :
    memWord (placed (ethernetFrame srcMac dstMac ethertype payload padding) behind) 12 =
      ethertype := by
  have hbyte : ∀ a < 14, placed (ethernetFrame srcMac dstMac ethertype payload padding) behind a =
      (ethernetFrame srcMac dstMac ethertype payload padding).getD a 0 := fun a ha => by
    refine if_pos ?_
    rw [ethernetFrame]
    simp only [List.length_append, List.length_cons, List.length_nil]
    omega
  rw [memWord, hbyte 12 (by decide), hbyte 13 (by decide)]
  exact hiByte_loByte h

/-- A host that receives a frame logs its datagram, if that is for the card and passes the
checks, the port is open and there is room. -/
theorem Carrier.Built.logs {net : Net} {log : List UdpEntry} (hlogs : net.Logs log) (h : c.Built)
    (r : Reassembly) (behind : Nat → UInt8) (ip : IpAddr) : ∃ heap packet size,
    udpSend c.datagram.checksumIp c.datagram.dest.ip c.datagram.port c.datagram.dest.port
        c.datagram.data heap = .ok (packet, size) ∧
      packet size = c.datagram.behind ∧
      (∀ a < size, placed c.frame behind (34 + a) = packet a) ∧
      (frameReceived r net (placed c.frame behind) ip c.frame.length).net.Logs
        (if (c.datagram.dest.ip = ip ∨ c.datagram.dest.ip = ipBroadcastAddr) ∧
            UdpAccepted (fun a => placed c.frame behind (34 + a)) c.datagram.ip
              c.datagram.dest.ip size ∧
            net.portsOpen c.datagram.dest.port = true ∧ log.length < udpBufferSize then
          log ++ [c.datagram.entry]
        else log) := by
  obtain ⟨heap, packet, size, srcMac, dstMac, identification, padding, hsent, hbehind, hframe⟩ := h
  obtain ⟨hfits, hsize, -⟩ := udpSend_ok hsent
  unfold udpMaxDataSize at hfits
  unfold udpHeaderSize at hsize
  have hlength : (sealedHeader (ipHeaderLen + size) identification ipFlagDf ipProtoUdp
      c.datagram.ip c.datagram.dest.ip).length = ipHeaderLen := rfl
  have hpayload : ∀ a < ipHeaderLen + size, placed c.frame behind (14 + a) =
      (sealedHeader (ipHeaderLen + size) identification ipFlagDf ipProtoUdp c.datagram.ip
        c.datagram.dest.ip ++ (List.range size).map packet).getD a 0 := fun a ha => by
    rw [hframe]
    apply placed_ethernetFrame
    rw [List.length_append, List.length_map, List.length_range, hlength]
    exact ha
  have hheader : ∀ a < ipHeaderLen, placed c.frame behind (ipBase + a) =
      (sealedHeader (ipHeaderLen + size) identification ipFlagDf ipProtoUdp c.datagram.ip
        c.datagram.dest.ip).getD a 0 := fun a ha => by
    rw [ipBase, hpayload a (by omega), List.getD_append _ _ _ _ (by rw [hlength]; exact ha)]
  have hbody : ∀ a < size, placed c.frame behind (34 + a) = packet a := fun a ha => by
    have h := hpayload (ipHeaderLen + a) (by omega)
    rw [List.getD_append_right _ _ _ _ (by rw [hlength]; omega), hlength,
      Nat.add_sub_cancel_left, List.getD_eq_getElem _ _ (by simpa using ha), List.getElem_map,
      List.getElem_range] at h
    rw [← h, ipHeaderLen]
    congr 1
    omega
  have htype : memWord (placed c.frame behind) 12 = etherTypeIp := by
    rw [hframe]
    exact memWord_ethertype srcMac dstMac (by decide) _ _ _
  have hnonempty : 0 < c.frame.length := by
    rw [hframe, ethernetFrame]
    simp
  have hstored := storedFrom_sent hsent hbody c.datagram.ip
  have hport : UInt16.ofNat (memWord (fun a => placed c.frame behind (34 + a)) 2) =
      c.datagram.dest.port := congrArg UdpEntry.port hstored
  have hlogged := hlogs.udpReceived (fun a => placed c.frame behind (34 + a)) c.datagram.ip
    c.datagram.dest.ip (show (size : Int) ≤ 1480 by omega)
  rw [Int.toNat_natCast, logAfter, hstored, hport] at hlogged
  refine ⟨heap, packet, size, hsent, hbehind, hbody, ?_⟩
  rw [frameReceived_sealed hheader r net ip rfl (by omega) htype hnonempty]
  by_cases hdest : c.datagram.dest.ip = ip ∨ c.datagram.dest.ip = ipBroadcastAddr
  · simp only [hdest, true_and, if_true]
    exact hlogged
  · rw [if_neg hdest, if_neg fun hall => hdest hall.1]
    exact hlogs

end Frame

/-! ### Runs -/

namespace Hosts

section Runs

variable (config : Nat → HostConfig) (reassembly : Nat → Reassembly)

def run (events : List HostsEvent) : Hosts := events.foldl (step config) (start reassembly)

/-- A program sent the datagram: `sendto` was called for a socket bound to its port, on a
host whose card has its address. -/
def WasSent (events : List HostsEvent) (d : UdpSent) : Prop :=
  ∃ before h s around after out,
    events = before ++ .sendto h s around d.data d.dest :: after ∧
    ((run config reassembly before).net h).isUdp s = true ∧
    d.port = ((((run config reassembly before).net h).sendto s).sockets s).bindAddr.port ∧
    (config h).ipRoute around.arp around.stack d.dest.ip = .ok out ∧ d.ip = out.ip

def Takes (h : Nat) (ip : IpAddr) : Prop :=
  ip ∈ (config h).interfaces ∨ ip = ipBroadcastAddr

/-- What holds of the hosts after the events: the frames are those of datagrams sent, and
the buffers hold what came out of them. -/
structure Honest (events : List HostsEvent) (w : Hosts) : Prop where
  built : ∀ c ∈ w.wire, c.Built
  sent : ∀ c ∈ w.wire, WasSent config reassembly events c.datagram
  logged : ∀ h, ∃ log, (w.net h).Logs log ∧
    ∀ e ∈ log, ∃ c ∈ w.wire, c.datagram.entry = e ∧ Takes config h c.datagram.dest.ip

end Runs

variable {config : Nat → HostConfig} {reassembly : Nat → Reassembly}
  {events : List HostsEvent} {w : Hosts}

theorem run_append (event : HostsEvent) : run config reassembly (events ++ [event]) =
    step config (run config reassembly events) event := by
  rw [run, run, List.foldl_append, List.foldl_cons, List.foldl_nil]

theorem WasSent.append {d : UdpSent} (h : WasSent config reassembly events d)
    (event : HostsEvent) : WasSent config reassembly (events ++ [event]) d := by
  obtain ⟨before, h, s, around, after, out, hevents, hrest⟩ := h
  refine ⟨before, h, s, around, after ++ [event], out, ?_, hrest⟩
  rw [hevents, List.append_assoc, List.cons_append]

theorem udpSendTo_mem {h : HostConfig} {around : Surroundings} {port : UInt16}
    {data : List UInt8} {dest : SockAddr} {c : Carrier}
    (hc : c ∈ (h.udpSendTo around port data dest).2) :
    c.Built ∧ c.datagram.data = data ∧ c.datagram.dest = dest ∧ c.datagram.port = port ∧
      ∃ out, h.ipRoute around.arp around.stack dest.ip = .ok out ∧ c.datagram.ip = out.ip := by
  rw [HostConfig.udpSendTo] at hc
  split at hc
  · cases hc
  rename_i packet size hsent
  obtain ⟨hfits, hsize, -⟩ := udpSend_ok hsent
  unfold udpMaxDataSize at hfits
  unfold udpHeaderSize at hsize
  split at hc
  · cases hc
  rename_i out hroute
  have hlength : ((List.range size).map packet).length = size := by
    rw [List.length_map, List.length_range]
  rw [ipSend, if_neg (by rw [hlength]; omega), hlength] at hc
  dsimp only at hc
  split at hc
  swap
  · cases hc
  rw [List.map_cons, List.map_nil, List.mem_singleton] at hc
  subst hc
  exact ⟨⟨around.packetHeap, packet, size, h.mac out.card, out.dstMac, around.identification,
    around.frameHeap, hsent, rfl, rfl⟩, rfl, rfl, rfl, out, hroute, rfl⟩

theorem Honest.keeps (hw : Honest config reassembly events w) {h : Nat} {net : Net}
    (hsame : net.packetBuffer = (w.net h).packetBuffer) (h' : Nat) :
    ∃ log, (Function.update w.net h net h').Logs log ∧
      ∀ e ∈ log, ∃ c ∈ w.wire, c.datagram.entry = e ∧ Takes config h' c.datagram.dest.ip := by
  obtain ⟨log, hlogs, hlog⟩ := hw.logged h'
  refine ⟨log, hlogs.congr ?_, hlog⟩
  by_cases hh : h' = h
  · subst hh
    rw [Function.update_self, hsame]
  · rw [Function.update_of_ne hh]

theorem Honest.sendto (hw : Honest config reassembly events (run config reassembly events))
    (h s : Nat) (around : Surroundings) (data : List UInt8) (dest : SockAddr) :
    Honest config reassembly (events ++ [.sendto h s around data dest])
      (step config (run config reassembly events) (.sendto h s around data dest)) := by
  have hold := hw.sent
  generalize hv : run config reassembly events = v at hw hold
  rw [step]
  cases hs : (v.net h).isUdp s with
  | false => exact ⟨hw.built, fun c hc => (hold c hc).append _, hw.logged⟩
  | true =>
      simp only [Bool.not_true, Bool.false_eq_true, if_false]
      constructor
      · intro c hc
        rcases List.mem_append.mp hc with hc | hc
        · exact hw.built c hc
        · exact (udpSendTo_mem hc).1
      · intro c hc
        rcases List.mem_append.mp hc with hc | hc
        · exact (hold c hc).append _
        · obtain ⟨-, hdata, hdest, hport, out, hroute, hip⟩ := udpSendTo_mem hc
          subst hv
          rw [← hdata, ← hdest] at *
          exact ⟨events, h, s, around, [], out, rfl, hs, hport, hroute, hip⟩
      · intro h'
        have hbuffer : ((v.net h).sendto s).packetBuffer = (v.net h).packetBuffer := by
          rw [Net.sendto, hs]
          exact Net.autoBind_packetBuffer s
        obtain ⟨log, hlogs, hlog⟩ := hw.keeps hbuffer h'
        refine ⟨log, hlogs, fun e he => ?_⟩
        obtain ⟨c, hc, hrest⟩ := hlog e he
        exact ⟨c, List.mem_append_left _ hc, hrest⟩

theorem Honest.receive (hw : Honest config reassembly events w) {h : Nat} {ip : IpAddr}
    (hip : ip ∈ (config h).interfaces) (k : Nat) (behind : Nat → UInt8) :
    Honest config reassembly (events ++ [.receive h ip k behind])
      (step config w (.receive h ip k behind)) := by
  have hsent : ∀ c ∈ w.wire, WasSent config reassembly (events ++ [.receive h ip k behind])
      c.datagram := fun c hc => (hw.sent c hc).append _
  rw [step]
  cases hk : w.wire[k]? with
  | none => exact ⟨hw.built, hsent, hw.logged⟩
  | some c =>
      have hc : c ∈ w.wire := List.mem_of_getElem? hk
      refine ⟨hw.built, hsent, fun h' => ?_⟩
      obtain ⟨log, hlogs, hlog⟩ := hw.logged h'
      by_cases hh : h' = h
      swap
      · simp only [afterFrame, Function.update_of_ne hh]
        exact ⟨log, hlogs, hlog⟩
      subst hh
      obtain ⟨_, _, _, -, -, -, hafter⟩ :=
        (hw.built c hc).logs hlogs (w.reassembly h') behind ip
      simp only [afterFrame, Function.update_self]
      refine ⟨_, hafter, fun e he => ?_⟩
      split at he
      · rename_i haccepted
        rcases List.mem_append.mp he with he | he
        · exact hlog e he
        · rw [List.mem_singleton.mp he]
          refine ⟨c, hc, rfl, haccepted.1.imp_left fun heq => ?_⟩
          rw [heq]
          exact hip
      · exact hlog e he

theorem Honest.other (hw : Honest config reassembly events w) {h : Nat} {ip : IpAddr}
    {frame : List UInt8} {behind : Nat → UInt8}
    (hother : memWord (placed frame behind) 12 = etherTypeIp →
      (placed frame behind 23).toNat ≠ ipProtoUdp) :
    Honest config reassembly (events ++ [.other h ip frame behind])
      (step config w (.other h ip frame behind)) := by
  refine ⟨hw.built, fun c hc => (hw.sent c hc).append _, hw.keeps ?_⟩
  rw [frameReceived_other hother]

theorem Honest.call (hw : Honest config reassembly events w) (h : Nat) {op : NetOp}
    (hop : ∀ packet sender dest len, op ≠ .udpReceived packet sender dest len) :
    Honest config reassembly (events ++ [.call h op]) (step config w (.call h op)) :=
  ⟨hw.built, fun c hc => (hw.sent c hc).append _, hw.keeps (Net.run_packetBuffer hop)⟩

theorem run_sound (hpossible : ∀ event ∈ events, event.Possible config) :
    Honest config reassembly events (run config reassembly events) := by
  induction events using List.reverseRecOn with
  | nil => exact ⟨nofun, nofun, fun _ => ⟨[], zeroNet_logs, nofun⟩⟩
  | append_singleton events event ih =>
      have hw := ih fun e he => hpossible e (List.mem_append_left _ he)
      have hevent := hpossible event (List.mem_append_right _ (List.mem_singleton_self _))
      rw [run_append]
      cases event with
      | sendto h s around data dest => exact hw.sendto h s around data dest
      | call h op => exact hw.call h hevent.1
      | receive h ip k behind => exact hw.receive hevent k behind
      | other h ip frame behind => exact hw.other hevent.2

/-! ### What arrives -/

/-- The condition under which a host takes the datagram of a frame: it is for the card, the
port is open, there is room behind the log, and for an odd length the same byte lies behind
it as when it was sent. -/
def Delivers (w : Hosts) (log : List UdpEntry) (h : Nat) (ip : IpAddr) (c : Carrier)
    (behind : Nat → UInt8) : Prop :=
  (c.datagram.dest.ip = ip ∨ c.datagram.dest.ip = ipBroadcastAddr) ∧
    (w.net h).portsOpen c.datagram.dest.port = true ∧ log.length < udpBufferSize ∧
    (c.datagram.data.length % 2 = 0 ∨
      placed c.frame behind (42 + c.datagram.data.length) = c.datagram.behind)

theorem afterFrame_logs {h : Nat} {log : List UdpEntry} (hlogs : (w.net h).Logs log) {c : Carrier}
    (hc : c.Built) (hsource : c.datagram.checksumIp = c.datagram.ip) (ip : IpAddr)
    (behind : Nat → UInt8) :
    (w.Delivers log h ip c behind →
      ((w.afterFrame h ip c.frame behind).net h).Logs (log ++ [c.datagram.entry])) ∧
    (¬w.Delivers log h ip c behind → ((w.afterFrame h ip c.frame behind).net h).Logs log) := by
  obtain ⟨heap, packet, size, hsent, hbehind, hbody, hafter⟩ :=
    hc.logs hlogs (w.reassembly h) behind ip
  obtain ⟨-, hsize, -⟩ := udpSend_ok hsent
  rw [hsource] at hsent
  have hplace : 34 + size = 42 + c.datagram.data.length := by
    rw [hsize, udpHeaderSize]
    omega
  have hport : UInt16.ofNat (memWord (fun a => placed c.frame behind (34 + a)) 2) =
      c.datagram.dest.port :=
    congrArg UdpEntry.port (storedFrom_sent hsent hbody c.datagram.ip)
  have haccepted : (w.net h).portsOpen c.datagram.dest.port = true →
      log.length < udpBufferSize → (UdpAccepted (fun a => placed c.frame behind (34 + a))
        c.datagram.ip c.datagram.dest.ip size ↔ c.datagram.data.length % 2 = 0 ∨
          placed c.frame behind (42 + c.datagram.data.length) = c.datagram.behind) := by
    intro hopen hroom
    have hfree := hlogs.find_free
    rw [if_pos hroom] at hfree
    rw [← hplace, ← hbehind, ← receiveSlot_sent_iff hsent hbody hopen hfree, hlogs.receiveSlot_eq,
      hport, Int.toNat_natCast]
    simp [hopen, hroom]
  simp only [afterFrame, Function.update_self]
  constructor
  · rintro ⟨hdest, hopen, hroom, hbyte⟩
    rwa [if_pos ⟨hdest, (haccepted hopen hroom).mpr hbyte, hopen, hroom⟩] at hafter
  · intro hnot
    rwa [if_neg fun hall => hnot ⟨hall.1, hall.2.2.1, hall.2.2.2,
      (haccepted hall.2.2.1 hall.2.2.2).mp hall.2.1⟩] at hafter

end Hosts

open Hosts

/-- Whatever is lost, duplicated, delayed or sent beside them: what `recvfrom` returns was
given to `sendto`, for the address of this host and the port that is read, by a program on
the host that it is said to be from. -/
theorem recvfrom_returns_what_was_sent {config : Nat → HostConfig}
    {reassembly : Nat → Reassembly} {events : List HostsEvent}
    (hpossible : ∀ event ∈ events, event.Possible config) {h s len : Nat} {flags : BitVec 32}
    {data : List UInt8} {sender : SockAddr}
    (hread : (((run config reassembly events).net h).recvfrom s len flags).1 =
      .ok (data, sender)) :
    ∃ d, WasSent config reassembly events d ∧ Takes config h d.dest.ip ∧
      d.dest.port = ((run config reassembly events).net h).readPort s ∧
      sender = ⟨UInt8.ofNat 1, d.ip, d.port⟩ ∧ data = d.data.take len := by
  have hw : Honest config reassembly events _ := run_sound hpossible
  have hs : ((run config reassembly events).net h).isUdp s = true := by
    by_contra hnot
    unfold Net.recvfrom at hread
    rw [if_pos (by simpa using hnot)] at hread
    cases hread
  obtain ⟨log, hlogs, hlog⟩ := hw.logged h
  rw [hlogs.recvfrom_eq hs, readLog] at hread
  split at hread
  · cases hread
  rename_i e hfound
  obtain ⟨c, hc, rfl, htakes⟩ := hlog e (List.mem_of_find?_eq_some hfound)
  have hport : c.datagram.entry.port = ((run config reassembly events).net h).readPort s := by
    simpa using List.find?_some hfound
  obtain ⟨rfl, rfl⟩ := Prod.mk.inj (Except.ok.inj hread)
  exact ⟨c.datagram, hw.sent c hc, htakes, hport, rfl, rfl⟩

/-- A datagram whose frame is received is accepted exactly when it is for an open port of
the card, there is room, and for an odd length the byte behind it is the same at both ends;
else the buffer stays, and the first one for its port is what `recvfrom` then returns. -/
theorem udp_delivers_iff {config : Nat → HostConfig} {reassembly : Nat → Reassembly}
    {events : List HostsEvent} (hpossible : ∀ event ∈ events, event.Possible config)
    {k : Nat} {c : Carrier} (hsent : (run config reassembly events).wire[k]? = some c)
    (hsource : c.datagram.checksumIp = c.datagram.ip) (h : Nat) (ip : IpAddr)
    (behind : Nat → UInt8) :
    ∃ log, ((run config reassembly events).net h).Logs log ∧
      (((run config reassembly (events ++ [.receive h ip k behind])).net h).Logs
        (log ++ [c.datagram.entry]) ↔ (run config reassembly events).Delivers log h ip c behind) ∧
      (¬(run config reassembly events).Delivers log h ip c behind →
        ((run config reassembly (events ++ [.receive h ip k behind])).net h).Logs log) ∧
      ((run config reassembly events).Delivers log h ip c behind →
        (∀ e ∈ log, e.port ≠ c.datagram.dest.port) → ∀ s len flags,
        ((run config reassembly (events ++ [.receive h ip k behind])).net h).isUdp s = true →
        ((run config reassembly (events ++ [.receive h ip k behind])).net h).readPort s =
          c.datagram.dest.port →
        (((run config reassembly (events ++ [.receive h ip k behind])).net h).recvfrom s len
          flags).1 = .ok (c.datagram.data.take len, c.datagram.entry.sender)) := by
  have hw : Honest config reassembly events _ := run_sound hpossible
  obtain ⟨log, hlogs, -⟩ := hw.logged h
  obtain ⟨hlogged, hdropped⟩ := afterFrame_logs hlogs
    (hw.built c (List.mem_of_getElem? hsent)) hsource ip behind
  simp only [run_append, step, hsent]
  refine ⟨log, hlogs, ⟨fun hafter => ?_, hlogged⟩, hdropped,
    fun hdelivers hfirst s len flags hs hport => ?_⟩
  · -- a buffer is not the longer log and the shorter one
    by_contra hnot
    have hroom : log.length < udpBufferSize := by
      simpa [Nat.add_one_le_iff] using hafter.length
    have hfree := ((hdropped hnot).lengthAt_eq_zero hroom).mpr (Nat.le_refl _)
    have htaken := (hafter.lengthAt_eq_zero hroom).mp hfree
    simp at htaken
  · have hnone : (log.find? fun d => d.port = c.datagram.dest.port) = none := by
      rw [List.find?_eq_none]
      exact fun e he => by simpa using hfirst e he
    rw [(hlogged hdelivers).recvfrom_eq hs, hport, readLog, List.find?_append, hnone]
    simp [UdpSent.entry]

/-- Hosts on one network, with the addresses 10.0.0.1, 10.0.0.2 and so on. -/
def lanHost (h : Nat) : HostConfig where
  interfaces := [⟨10, 0, 0, UInt8.ofNat (h + 1)⟩]
  table := ⟨[⟨⟨10, 0, 0, 0⟩, zeroIp, ⟨255, 255, 255, 0⟩, 0⟩], by decide⟩
  broadcastCard := 0
  mac := fun _ => zeroMac

/-- A socket of the second host is bound to port 7, and the first sends it two bytes. -/
def greeting : List HostsEvent :=
  [.call 1 (.socket 1 1 1 0), .call 1 (.bind 0 (some ⟨1, zeroIp, 7⟩)),
    .call 0 (.socket 1 1 1 0), .call 0 (.bind 0 (some ⟨1, zeroIp, 9⟩)),
    .sendto 0 0 ⟨zeroIp, zeroIp, fun _ => 1, fun _ => 2, fun _ _ => (0, zeroMac), 1⟩ [72, 105]
      ⟨1, ⟨10, 0, 0, 2⟩, 7⟩]

def greeted : List HostsEvent := greeting ++ [.receive 1 ⟨10, 0, 0, 2⟩ 0 fun _ => 3]

def freshReassembly (_ : Nat) : Reassembly := ⟨fun _ => 0, fun _ => 0⟩

theorem recvfrom_returns_what_was_sent_greeting :
    ∃ d, WasSent lanHost freshReassembly greeted d ∧ Takes lanHost 1 d.dest.ip ∧
      d.dest.port = ((run lanHost freshReassembly greeted).net 1).readPort 0 ∧
      (⟨1, ⟨10, 0, 0, 1⟩, 9⟩ : SockAddr) = ⟨UInt8.ofNat 1, d.ip, d.port⟩ ∧
      [72, 105] = d.data.take 64 := by
  have hpossible : ∀ event ∈ greeted, event.Possible lanHost := by
    simp [greeted, greeting, HostsEvent.Possible, lanHost]
  have hread : (((run lanHost freshReassembly greeted).net 1).recvfrom 0 64 0#32).1 =
      .ok ([72, 105], ⟨1, ⟨10, 0, 0, 1⟩, 9⟩) := by
    decide +kernel
  exact recvfrom_returns_what_was_sent hpossible hread

theorem udp_delivers_iff_greeting :
    (((run lanHost freshReassembly greeted).net 1).recvfrom 0 64 0#32).1 =
      .ok ([72, 105], ⟨1, ⟨10, 0, 0, 1⟩, 9⟩) := by
  have hpossible : ∀ event ∈ greeting, event.Possible lanHost := by
    simp [greeting, HostsEvent.Possible]
  have hframe : ((run lanHost freshReassembly greeting).wire[0]?).map (fun c =>
      (c.datagram.checksumIp, c.datagram.ip, c.datagram.port, c.datagram.dest, c.datagram.data)) =
        some (⟨10, 0, 0, 1⟩, ⟨10, 0, 0, 1⟩, 9, ⟨1, ⟨10, 0, 0, 2⟩, 7⟩, [72, 105]) := by
    decide
  obtain ⟨c, hsent, hc⟩ := Option.map_eq_some_iff.mp hframe
  simp only [Prod.mk.injEq] at hc
  obtain ⟨hsource, hip, hport, hdest, hdata⟩ := hc
  obtain ⟨log, hlogs, -, -, hread⟩ := udp_delivers_iff hpossible hsent (hsource.trans hip.symm) 1
    ⟨10, 0, 0, 2⟩ fun _ => 3
  have hempty : log = [] := by
    have hfree := (hlogs.lengthAt_eq_zero (i := 0) (by decide)).mp (by decide)
    exact List.length_eq_zero_iff.mp (Nat.le_zero.mp hfree)
  subst hempty
  have hdelivers : (run lanHost freshReassembly greeting).Delivers [] 1 ⟨10, 0, 0, 2⟩ c
      fun _ => 3 := by
    refine ⟨Or.inl (by rw [hdest]), ?_, by decide, Or.inl (by rw [hdata]; rfl)⟩
    rw [hdest]
    decide
  have hread := hread hdelivers nofun 0 64 0#32 (by decide +kernel)
    (by rw [hdest]; decide +kernel)
  rw [hdata, UdpSent.entry, hip, hport] at hread
  exact hread

end GlitchedOS
