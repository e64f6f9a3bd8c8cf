/-
UDP: the buffer of received packets, the ports, and the calls of `socket.c`.  A
pointer to a socket is a number; `kmalloc` returns any number that is not in use.
-/
import GlitchedOS.Error
import GlitchedOS.Net.Ip
import Mathlib.Data.Finset.Basic
import Mathlib.Data.Finset.Erase

namespace GlitchedOS

def afInet : Int := 1
def sockDgram : Int := 1
def ipprotoUdp : Int := 1
def msgPeek : BitVec 32 := 1#32

def udpHeaderSize : Nat := 8
def udpBufferSize : Nat := 1024
/-- The bytes of one entry of `udp_packet_buffer`: an address and a packet. -/
def udpSlotSize : Nat := 1484

/-- `sockaddr_in_t` -/
structure SockAddr where
  type : UInt8
  ip : IpAddr
  port : UInt16
deriving Repr, DecidableEq

/-- `socket_t` -/
structure Socket where
  domain : Int
  type : Int
  protocol : Int
  bindAddr : SockAddr
deriving Repr, DecidableEq

/-- The buffer, whose entries lie one after the other with other memory behind
them, the open ports, and the sockets. -/
structure Net where
  packetBuffer : Nat → UInt8
  portsOpen : UInt16 → Bool
  sockets : Nat → Socket
  live : Finset Nat

/-- The 16-bit number in network order at the address `a`. -/
def memWord (mem : Nat → UInt8) (a : Nat) : Nat :=
  (mem a).toNat * 256 + (mem (a + 1)).toNat

/-- The words of an address as the checksum adds them. -/
def IpAddr.words (ip : IpAddr) : Nat :=
  ip.b0.toNat * 256 + ip.b1.toNat + (ip.b2.toNat * 256 + ip.b3.toNat)

/-- `udp_checksum`.  The sum fits in 32 bits and is folded after three rounds. -/
def udpChecksum (src dst : IpAddr) (packet : Nat → UInt8) (len : Nat) : Nat :=
  2 ^ 16 - 1 - foldCarry 4 (src.words + dst.words + 17 + len % 2 ^ 16 +
    ((List.range ((len + 1) / 2)).map fun i => memWord packet (2 * i)).sum)

def zeroChecksum (packet : Nat → UInt8) : Nat → UInt8 := fun a =>
  if a = 6 ∨ a = 7 then 0 else packet a

namespace Net

variable (n : Net)

/-- The fields of the header in entry `i` of the buffer. -/
def srcPortAt (i : Nat) : Nat := memWord n.packetBuffer (udpSlotSize * i + 4)
def destPortAt (i : Nat) : Nat := memWord n.packetBuffer (udpSlotSize * i + 6)
def lengthAt (i : Nat) : Nat := memWord n.packetBuffer (udpSlotSize * i + 8)

/-- The two `memcpy` of `udp_received` to the entry `i`. -/
def storePacket (i : Nat) (sender : IpAddr) (packet : Nat → UInt8) (len : Nat) :
    Net :=
  let base := udpSlotSize * i
  let address := [sender.b0, sender.b1, sender.b2, sender.b3]
  { n with packetBuffer := fun a =>
      if base + 4 ≤ a ∧ a < base + 4 + len then packet (a - (base + 4))
      else if base ≤ a ∧ a < base + 4 then address.getD (a - base) 0
      else n.packetBuffer a }

/-- The entry `udp_received` stores a packet in, if it does. -/
def receiveSlot (packet : Nat → UInt8) (sender dest : IpAddr) (len : Int) :
    Option Nat :=
  if len < udpHeaderSize then none
  else if (memWord packet 4 : Int) ≠ len then none
  else if memWord packet 6 ≠ udpChecksum sender dest (zeroChecksum packet) len.toNat
    then none
  else if n.portsOpen (UInt16.ofNat (memWord packet 2)) then
    (List.range udpBufferSize).find? fun i => n.lengthAt i = 0
  else none

/-- `udp_received`; `packet` is the memory at the pointer. -/
def udpReceived (packet : Nat → UInt8) (sender dest : IpAddr) (len : Int) : Net :=
  match n.receiveSlot packet sender dest len with
  | none => n
  | some i => n.storePacket i sender (zeroChecksum packet) len.toNat

/-- The entry `udp_get_packet` finds for a port. -/
def findPacket (port : UInt16) : Option Nat :=
  (List.range udpBufferSize).find? fun i =>
    n.lengthAt i ≠ 0 ∧ n.destPortAt i = port.toNat

/-- `header->length = 0` -/
def freePacket (i : Nat) : Net :=
  { n with packetBuffer := fun a =>
      if a = udpSlotSize * i + 8 ∨ a = udpSlotSize * i + 9 then 0
      else n.packetBuffer a }

/-- The address of the sender of the packet in entry `i`. -/
def senderAt (i : Nat) : SockAddr :=
  let base := udpSlotSize * i
  ⟨UInt8.ofNat 1, ⟨n.packetBuffer base, n.packetBuffer (base + 1),
    n.packetBuffer (base + 2), n.packetBuffer (base + 3)⟩,
    UInt16.ofNat (n.srcPortAt i)⟩

/-- The bytes `udp_get_packet` copies from entry `i`; the size is a `size_t`. -/
def payloadAt (i len : Nat) : List UInt8 :=
  let size := (n.lengthAt i + 2 ^ 64 - udpHeaderSize) % 2 ^ 64
  (List.range (min size len)).map fun a => n.packetBuffer (udpSlotSize * i + 12 + a)

/-- `udp_get_packet` -/
def udpGetPacket (port : UInt16) (len : Nat) (peek : BitVec 32) :
    Except Int (List UInt8 × SockAddr) × Net :=
  match n.findPacket port with
  | none => (.error eAgain, n)
  | some i => (.ok (n.payloadAt i len, n.senderAt i),
      if peek = 0#32 then n.freePacket i else n)

/-- `udp_open` -/
def udpOpen (port : UInt16) : Int × Net :=
  if n.portsOpen port then (eBusy, n)
  else (0, { n with portsOpen := Function.update n.portsOpen port true })

/-- `udp_close` -/
def udpClose (port : UInt16) : Net :=
  { n with portsOpen := Function.update n.portsOpen port false }

def setBindAddr (s : Nat) (addr : SockAddr) : Net :=
  let sock := { n.sockets s with bindAddr := addr }
  { n with sockets := Function.update n.sockets s sock }

/-- The checks at the head of every call on a socket. -/
def isUdp (s : Nat) : Bool :=
  let sock := n.sockets s
  decide (sock.domain = afInet ∧ sock.type = sockDgram ∧
    sock.protocol = ipprotoUdp)

def zeroAddr : SockAddr := ⟨0, ⟨0, 0, 0, 0⟩, 0⟩

def addSocket (new : Nat) (sock : Socket) : Net :=
  { n with sockets := Function.update n.sockets new sock
           live := insert new n.live }

/-- `socket`; `new` is the address of the new socket. -/
def socket (domain type protocol : Int) (new : Nat) : Int × Net :=
  if domain ≠ afInet then (eInval, n)
  else if type ≠ sockDgram then (eInval, n)
  else if protocol ≠ ipprotoUdp then (eInval, n)
  else (0, n.addSocket new ⟨domain, type, protocol, zeroAddr⟩)

/-- The last line of `unbind`, and of `socket_close` before it frees the socket. -/
def closePort (s : Nat) : Net :=
  if (n.sockets s).bindAddr.type ≠ 0 then n.udpClose (n.sockets s).bindAddr.port
  else n

/-- `unbind` -/
def unbind (s : Nat) : Int × Net :=
  if !n.isUdp s then (eInval, n) else (0, n.closePort s)

/-- `bind`; what `udp_open` answers is not looked at. -/
def bind (s : Nat) (addr : Option SockAddr) : Int × Net :=
  if !n.isUdp s then (eInval, n)
  else match addr with
  | none => (eInval, n)
  | some addr => (0, (((n.closePort s).setBindAddr s addr).udpOpen addr.port).2)

/-- The first port from 40000 on that is closed. -/
def freePort : Option UInt16 :=
  ((List.range' 40000 25535).map UInt16.ofNat).find? fun p => !n.portsOpen p

/-- The automatic bind of `recvfrom` and `sendto`. -/
def autoBind (s : Nat) : Net :=
  if (n.sockets s).bindAddr.type ≠ 0 then n
  else match n.freePort with
  | none => n
  | some port => (n.udpOpen port).2.setBindAddr s ⟨UInt8.ofNat 1, ⟨0, 0, 0, 0⟩, port⟩

/-- `recvfrom` -/
def recvfrom (s len : Nat) (flags : BitVec 32) :
    Except Int (List UInt8 × SockAddr) × Net :=
  if !n.isUdp s then (.error eInval, n)
  else
    let n := n.autoBind s
    n.udpGetPacket (n.sockets s).bindAddr.port len (flags ||| msgPeek)

/-- `sendto`, up to the call of `udp_send`. -/
def sendto (s : Nat) : Net := if !n.isUdp s then n else n.autoBind s

/-- `socket_close` -/
def socketClose (s : Nat) : Int × Net :=
  if !n.isUdp s then (eInval, n)
  else (0, { n.closePort s with live := n.live.erase s })

end Net

/-- The calls on sockets and the arrival of a packet. -/
inductive NetOp where
  | socket (domain type protocol : Int) (new : Nat)
  | bind (s : Nat) (addr : Option SockAddr)
  | unbind (s : Nat)
  | recvfrom (s len : Nat) (flags : BitVec 32)
  | sendto (s : Nat)
  | socketClose (s : Nat)
  | udpReceived (packet : Nat → UInt8) (sender dest : IpAddr) (len : Int)

/-- A call is made on a live socket, and `kmalloc` returns memory not in use. -/
def NetOp.enabled (n : Net) : NetOp → Prop
  | .socket _ _ _ new => new ∉ n.live
  | .bind s _ | .unbind s | .recvfrom s _ _ | .sendto s | .socketClose s => s ∈ n.live
  | .udpReceived _ _ _ _ => True

def NetOp.run (n : Net) : NetOp → Net
  | .socket domain type protocol new => (n.socket domain type protocol new).2
  | .bind s addr => (n.bind s addr).2
  | .unbind s => (n.unbind s).2
  | .recvfrom s len flags => (n.recvfrom s len flags).2
  | .sendto s => n.sendto s
  | .socketClose s => (n.socketClose s).2
  | .udpReceived packet sender dest len => n.udpReceived packet sender dest len

instance decidableNetEnabled (n : Net) (op : NetOp) : Decidable (op.enabled n) :=
  match op with
  | .socket _ _ _ new => inferInstanceAs (Decidable (new ∉ n.live))
  | .bind s _ | .unbind s | .recvfrom s _ _ | .sendto s | .socketClose s =>
      inferInstanceAs (Decidable (s ∈ n.live))
  | .udpReceived _ _ _ _ => inferInstanceAs (Decidable True)

def zeroNet : Net := ⟨fun _ => 0, fun _ => false, fun _ => ⟨0, 0, 0, Net.zeroAddr⟩, ∅⟩

end GlitchedOS
