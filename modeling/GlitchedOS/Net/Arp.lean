/-
Address resolution.  `arp_request` runs in any number of tasks and is cut where a task
can be interrupted; `arp_reply` runs in the interrupt handler, at one stroke.  All
requests share the cache and the flag `waiting_for_reply`.
-/
import Mathlib.Logic.Function.Basic
import GlitchedOS.Error
import GlitchedOS.Net.Ip

namespace GlitchedOS

structure MacAddr where
  b0 : UInt8
  b1 : UInt8
  b2 : UInt8
  b3 : UInt8
  b4 : UInt8
  b5 : UInt8
deriving Repr, DecidableEq

def zeroMac : MacAddr := ⟨0, 0, 0, 0, 0, 0⟩

def zeroIp : IpAddr := ⟨0, 0, 0, 0⟩

def arpHtypeEthernet : UInt16 := 1
def arpPtypeIpv4 : UInt16 := 0x0800
def arpHlenEthernet : UInt8 := 6
def arpPlenIpv4 : UInt8 := 4
def arpOpcodeRequest : UInt16 := 1
def arpOpcodeReply : UInt16 := 2
def arpCacheSize : Nat := 1024

def eMsgsize : Int := -90

/-- `arp_packet_t`, its numbers in host order. -/
structure ArpPacket where
  htype : UInt16
  ptype : UInt16
  hlen : UInt8
  plen : UInt8
  opcode : UInt16
  senderMac : MacAddr
  senderIp : IpAddr
  targetMac : MacAddr
  targetIp : IpAddr
deriving Repr, DecidableEq

structure ArpEntry where
  ip : IpAddr
  mac : MacAddr
deriving Repr, DecidableEq

/-- What `send_ethernet` answers; the frame is handed to the card if it is not refused. -/
def sendEthernet (payloadLength : Nat) : Int := if 1792 < payloadLength then eMsgsize else 0

/-- `get_ip` and `get_mac`. -/
structure NetCards where
  getIp : Nat → IpAddr
  getMac : Nat → MacAddr

/-- Where a task is in `arp_request`: the loop index of the scans and the attempts, and
the time the attempt began as `int`. -/
inductive ArpPc where
  | idle
  | lookFirst (i : Nat)
  | setWaiting
  | send (i : Nat)
  | waitTest (i : Nat) (startTime : BitVec 32)
  | signalTest (i : Nat) (startTime : BitVec 32)
  | brokeTest (i : Nat)
  | finalTest
  | interrupted
  | timedOut
  | lookLast (i : Nat)
  | returned (ret : Int)
deriving Repr, DecidableEq

/-- A task's arguments, its buffer for the address and where it is. -/
structure ArpTask where
  targetIp : IpAddr
  card : Nat
  targetMacBuffer : MacAddr
  pc : ArpPc
deriving Repr, DecidableEq

/-- The cache, the flag, the tasks and the packets sent, with their cards. -/
structure ArpState where
  cache : Nat → ArpEntry
  waitingForReply : Bool
  tasks : Nat → ArpTask
  sent : List (Nat × ArpPacket)

namespace ArpState

variable (cards : NetCards)

def requestPacket (task : ArpTask) : ArpPacket :=
  ⟨arpHtypeEthernet, arpPtypeIpv4, arpHlenEthernet, arpPlenIpv4, arpOpcodeRequest,
    cards.getMac task.card, cards.getIp task.card, zeroMac, task.targetIp⟩

def replyPacket (request : ArpPacket) (card : Nat) : ArpPacket :=
  ⟨arpHtypeEthernet, arpPtypeIpv4, arpHlenEthernet, arpPlenIpv4, arpOpcodeReply,
    cards.getMac card, request.targetIp, request.senderMac, request.senderIp⟩

def freeEntry (s : ArpState) : Option Nat :=
  (List.range arpCacheSize).find? fun i => (s.cache i).ip == zeroIp

/-- The sender's entry goes to the first free place, if there is one. -/
def insert (s : ArpState) (ip : IpAddr) (mac : MacAddr) : ArpState :=
  match s.freeEntry with
  | some i => { s with cache := Function.update s.cache i ⟨ip, mac⟩ }
  | none => s

/-- Somebody waits, and this is a reply for us. -/
def Accepts (s : ArpState) (request : ArpPacket) (card : Nat) : Prop :=
  s.waitingForReply = true ∧ request.opcode = arpOpcodeReply ∧
    cards.getIp card = request.targetIp

instance (s : ArpState) (request : ArpPacket) (card : Nat) :
    Decidable (s.Accepts cards request card) := by
  unfold Accepts
  infer_instance

/-- `arp_reply`. -/
def arpReply (s : ArpState) (request : ArpPacket) (card : Nat) : ArpState :=
  let s :=
    if s.Accepts cards request card then
      { s.insert request.senderIp request.senderMac with waitingForReply := false }
    else s
  if request.opcode ≠ arpOpcodeRequest then s
  else if request.targetIp ≠ cards.getIp card then s
  else { s with sent := s.sent ++ [(card, replyPacket cards request card)] }

def setTask (s : ArpState) (t : Nat) (task : ArpTask) : ArpState :=
  { s with tasks := Function.update s.tasks t task }

/-- The task goes on at `pc`. -/
def goto (s : ArpState) (t : Nat) (pc : ArpPc) : ArpState :=
  s.setTask t { s.tasks t with pc := pc }

/-- One round of a scan of the cache: the entry is the target's, or the scan goes on. -/
def look (s : ArpState) (t i : Nat) (next : ArpPc) : ArpState :=
  let task := s.tasks t
  if (s.cache i).ip = task.targetIp then
    s.setTask t { task with targetMacBuffer := (s.cache i).mac, pc := .returned 0 }
  else s.goto t next

/-- The next step of task `t` in `arp_request`, with the uptime it would read and the
answer of `has_pending_signals`. -/
def arpRequest (s : ArpState) (t : Nat) (uptime : BitVec 64) (signal : Bool) : ArpState :=
  let task := s.tasks t
  match task.pc with
  | .idle | .returned _ => s
  | .lookFirst i =>
      if i < arpCacheSize then s.look t i (.lookFirst (i + 1)) else s.goto t .setWaiting
  | .setWaiting => { s with waitingForReply := true }.goto t (.send 0)
  | .send i =>
      if i < 3 then
        let res := sendEthernet (60 - 14)
        if res < 0 then s.goto t (.returned res)
        else
          { s with sent := s.sent ++ [(task.card, requestPacket cards task)] }.goto t
            (.waitTest i (uptime.setWidth 32))
      else s.goto t .finalTest
  | .waitTest i startTime =>
      -- the difference is taken in `uint64_t`, `start_time` extended by its sign
      if s.waitingForReply = true ∧ uptime - startTime.signExtend 64 < 1000 then
        s.goto t (.signalTest i startTime)
      else s.goto t (.brokeTest i)
  | .signalTest i startTime =>
      if signal then s.goto t .interrupted else s.goto t (.waitTest i startTime)
  | .brokeTest i =>
      if s.waitingForReply = true then s.goto t (.send (i + 1)) else s.goto t .finalTest
  | .finalTest =>
      if s.waitingForReply = true then s.goto t .timedOut else s.goto t (.lookLast 0)
  | .interrupted => { s with waitingForReply := false }.goto t (.returned eIntr)
  | .timedOut => { s with waitingForReply := false }.goto t (.returned eHostunreach)
  | .lookLast i =>
      if i < arpCacheSize then s.look t i (.lookLast (i + 1))
      else s.setTask t { task with targetMacBuffer := zeroMac, pc := .returned (-1) }

end ArpState

inductive ArpEvent where
  | call (t : Nat) (targetIp : IpAddr) (targetMacBuffer : MacAddr) (card : Nat)
  | run (t : Nat) (uptime : BitVec 64) (signal : Bool)
  | receive (request : ArpPacket) (card : Nat)

namespace ArpState

/-- One event; a task calls `arp_request` when it is not inside it. -/
def step (cards : NetCards) (s : ArpState) : ArpEvent → ArpState
  | .call t targetIp targetMacBuffer card =>
      s.setTask t ⟨targetIp, card, targetMacBuffer, .lookFirst 0⟩
  | .run t uptime signal => s.arpRequest cards t uptime signal
  | .receive request card => s.arpReply cards request card

def start : ArpState :=
  ⟨fun _ => ⟨zeroIp, zeroMac⟩, false, fun _ => ⟨zeroIp, 0, zeroMac, .idle⟩, []⟩

end ArpState

end GlitchedOS
