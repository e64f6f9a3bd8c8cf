/-
The routing table.  `ip_send` and `get_source_ip_for` each search it for the route of a
destination; a broadcast goes out over a card of its own, of which the second knows nothing.
-/
import GlitchedOS.Net.Arp
import GlitchedOS.Net.Fragments
import Mathlib.Data.List.MinMax

namespace GlitchedOS

def broadcastMac : MacAddr := ⟨255, 255, 255, 255, 255, 255⟩

/-- `route_t` -/
structure Route where
  destIps : IpAddr
  gateway : IpAddr
  netmask : IpAddr
  card : Int
deriving Repr, DecidableEq

/-- `routes` up to `routes_existing`. -/
structure RouteTable where
  routes : List Route
  fits : routes.length ≤ 16

/-- `popcount`.  Each round takes the lowest bit out. -/
def popcount (x : Nat) : Nat :=
  if x = 0 then 0 else popcount (x &&& (x - 1)) + 1
termination_by x
decreasing_by exact Nat.lt_of_le_of_lt Nat.and_le_right (by omega)

def IpAddr.mask (ip netmask : IpAddr) : IpAddr :=
  ⟨ip.b0 &&& netmask.b0, ip.b1 &&& netmask.b1, ip.b2 &&& netmask.b2, ip.b3 &&& netmask.b3⟩

namespace Route

def Matches (dst : IpAddr) (route : Route) : Prop :=
  dst.mask route.netmask = route.destIps.mask route.netmask

instance (dst : IpAddr) (route : Route) : Decidable (route.Matches dst) :=
  inferInstanceAs (Decidable (_ = _))

def prefixLength (route : Route) : Nat :=
  popcount route.netmask.b0.toNat + popcount route.netmask.b1.toNat +
    popcount route.netmask.b2.toNat + popcount route.netmask.b3.toNat

/-- One round of the search: the best route so far and its prefix. -/
def searchRound (dst : IpAddr) (best : Option Route × Int) (route : Route) :
    Option Route × Int :=
  if route.Matches dst then
    if best.2 < route.prefixLength then (some route, route.prefixLength) else best
  else best

/-- Who is asked for a MAC address: the gateway, or without one the destination. -/
def arpTarget (dst : IpAddr) (route : Route) : IpAddr :=
  if route.gateway ≠ zeroIp then route.gateway else dst

end Route

namespace RouteTable

/-- The search of `ip_send` and of `get_source_ip_for`. -/
def bestRoute (table : RouteTable) (dst : IpAddr) : Option Route :=
  (table.routes.foldl (Route.searchRound dst) (none, -1)).1

/-- What the search is for: of the routes that match, the first with the longest prefix. -/
def longestMatch (table : RouteTable) (dst : IpAddr) : Option Route :=
  (table.routes.filter fun route => route.Matches dst).argmax Route.prefixLength

def empty : RouteTable := ⟨[], Nat.zero_le 16⟩

/-- `add_route`, where `rdev` is what `stat` finds at the interface. -/
def addRoute (netDriverIndex : BitVec 32) (destIp gateway netmask : IpAddr) (rdev : BitVec 64)
    (table : RouteTable) : RouteTable :=
  if h : 16 ≤ table.routes.length then table
  else if (rdev >>> 32).setWidth 32 ≠ netDriverIndex then table
  else
    { routes := table.routes ++ [⟨destIp, gateway, netmask, (rdev.setWidth 32).toInt⟩]
      fits := by rw [List.length_append, List.length_singleton]; omega }

/-- `remove_route` -/
def removeRoute (destIp netmask : IpAddr) (table : RouteTable) : RouteTable where
  routes := table.routes.eraseP fun route => route.destIps = destIp ∧ route.netmask = netmask
  fits := (List.length_eraseP_le).trans table.fits

end RouteTable

inductive RouteOp where
  | add (destIp gateway netmask : IpAddr) (rdev : BitVec 64)
  | remove (destIp netmask : IpAddr)
deriving Repr, DecidableEq

def RouteOp.run (netDriverIndex : BitVec 32) (table : RouteTable) : RouteOp → RouteTable
  | .add destIp gateway netmask rdev =>
    table.addRoute netDriverIndex destIp gateway netmask rdev
  | .remove destIp netmask => table.removeRoute destIp netmask

/-- The table after calls of `add_route` and `remove_route`. -/
def routesAfter (netDriverIndex : BitVec 32) (ops : List RouteOp) : RouteTable :=
  ops.foldl (RouteOp.run netDriverIndex) RouteTable.empty

/-- `net_interfaces` with their addresses, the table and `broadcast_card`. -/
structure NetHost where
  interfaces : List IpAddr
  table : RouteTable
  broadcastCard : Int

/-- What `ip_send` has found out before it fills in the header. -/
structure Outgoing where
  card : Int
  ip : IpAddr
  dstMac : MacAddr

namespace NetHost

variable (h : NetHost)

/-- `does_exist` -/
def Exists (card : Int) : Prop := 0 ≤ card ∧ card < h.interfaces.length

instance (card : Int) : Decidable (h.Exists card) := inferInstanceAs (Decidable (_ ∧ _))

/-- `get_ip`: the buffer stays as it is if there is no such card. -/
def getIp (card : Int) (ip : IpAddr) : IpAddr :=
  if 0 ≤ card then h.interfaces.getD card.toNat ip else ip

/-- `get_source_ip_for`, with what lies on the stack. -/
def getSourceIpFor (stack dst : IpAddr) : IpAddr :=
  match h.table.bestRoute dst with
  | some route => h.getIp route.card stack
  | none => zeroIp

/-- `ip_send` up to the header.  `arp` is what `arp_request` answers. -/
def ipRoute (arp : IpAddr → Int → Int × MacAddr) (stack dst : IpAddr) : Except Int Outgoing :=
  if dst = ipBroadcastAddr then
    .ok ⟨h.broadcastCard, h.getIp h.broadcastCard stack, broadcastMac⟩
  else
    match h.table.bestRoute dst with
    | none => .error eHostunreach
    | some route =>
      let (res, mac) := arp (route.arpTarget dst) route.card
      if res < 0 then .error res else .ok ⟨route.card, h.getIp route.card stack, mac⟩

/-- `ip_send`: the packets given to `send_ethernet`, with their card, and the result. -/
def ipSendTo (arp : IpAddr → Int → Int × MacAddr) (send : Outgoing → List UInt8 → Int)
    (stack dst : IpAddr) (protocol identification : Nat) (payload : List UInt8)
    (rounds : Nat) : Option (List (Int × List UInt8) × Int) :=
  match h.ipRoute arp stack dst with
  | .error res => some ([], res)
  | .ok out => do
    let (packets, res) ← ipSend (send out) out.ip dst protocol identification payload rounds
    some (packets.map fun packet => (out.card, packet), res)

end NetHost

/-- The search finds the first of the longest matches. -/
theorem RouteTable.bestRoute_eq (table : RouteTable) (dst : IpAddr) :
    table.bestRoute dst = table.longestMatch dst := by
  have hsearch : ∀ routes : List Route,
      routes.foldl (Route.searchRound dst) (none, -1) =
        ((routes.filter fun route => route.Matches dst).argmax Route.prefixLength,
          ((routes.filter fun route => route.Matches dst).argmax Route.prefixLength).elim (-1)
            fun route => (route.prefixLength : Int)) := by
    intro routes
    induction routes using List.reverseRecOn with
    | nil => rfl
    | append_singleton routes route ih =>
        rw [List.foldl_append, ih, List.filter_append, List.foldl_cons, List.foldl_nil,
          Route.searchRound]
        by_cases hmatch : route.Matches dst
        · have hone : [route].filter (fun route => route.Matches dst) = [route] := by
            simp [hmatch]
          rw [if_pos hmatch, hone, List.argmax_concat]
          cases (routes.filter fun route => route.Matches dst).argmax Route.prefixLength with
          | none =>
              rw [if_pos]
              · rfl
              · exact Int.lt_of_lt_of_le (by decide) (Int.natCast_nonneg _)
          | some best =>
              by_cases hlonger : best.prefixLength < route.prefixLength
              · simp [hlonger]
              · simp [hlonger]
        · have hnone : [route].filter (fun route => route.Matches dst) = [] := by
            simp [hmatch]
          rw [if_neg hmatch, hnone, List.append_nil]
  rw [bestRoute, hsearch, longestMatch]

namespace NetHost

variable {h : NetHost} {arp : IpAddr → Int → Int × MacAddr} {stack stack' dst : IpAddr}

/-- The address of a card that exists does not come from the stack. -/
theorem getIp_of_exists {card : Int} (hexists : h.Exists card) (ip ip' : IpAddr) :
    h.getIp card ip = h.getIp card ip' := by
  obtain ⟨hzero, hlt⟩ := hexists
  have hindex : card.toNat < h.interfaces.length := by omega
  rw [getIp, getIp, if_pos hzero, if_pos hzero, List.getD_eq_getElem _ _ hindex,
    List.getD_eq_getElem _ _ hindex]

theorem ipRoute_card {out : Outgoing} (hroute : h.ipRoute arp stack dst = .ok out) :
    out.ip = h.getIp out.card stack ∧
      (dst = ipBroadcastAddr ∧ out.card = h.broadcastCard ∨
        dst ≠ ipBroadcastAddr ∧ ∃ route, h.table.bestRoute dst = some route ∧
          out.card = route.card) := by
  rw [ipRoute] at hroute
  split at hroute
  · rename_i hbroadcast
    obtain rfl := Except.ok.inj hroute
    exact ⟨rfl, .inl ⟨hbroadcast, rfl⟩⟩
  · rename_i hdst
    split at hroute
    · cases hroute
    · rename_i route hbest
      dsimp only at hroute
      split at hroute
      · cases hroute
      · obtain rfl := Except.ok.inj hroute
        exact ⟨rfl, .inr ⟨hdst, route, hbest, rfl⟩⟩

/-- The source address stands in the header of every packet. -/
theorem sourceOf_ipSend {send : List UInt8 → Int} {src : IpAddr}
    {protocol identification rounds : Nat} {payload : List UInt8}
    {packets : List (List UInt8)} {res : Int}
    (hsent : ipSend send src dst protocol identification payload rounds = some (packets, res)) :
    ∀ packet ∈ packets, sourceOf packet = src := by
  have hsealed : ∀ (totalLength flagsOffset : Nat) (data : List UInt8),
      sourceOf (sealedHeader totalLength identification flagsOffset protocol src dst ++ data) =
        src := fun _ _ _ => rfl
  rw [ipSend] at hsent
  intro packet hpacket
  split at hsent
  · obtain ⟨i, rfl⟩ := fragmentLoop_mem hsent packet hpacket
    rw [fragmentPacket_eq]
    exact hsealed _ _ _
  · obtain ⟨rfl, -⟩ := Prod.mk.inj (Option.some.inj hsent)
    rw [List.mem_singleton.mp hpacket]
    exact hsealed _ _ _

/-- A packet that `ip_send` gives to a card has that card's address. -/
theorem ipSendTo_mem {send : Outgoing → List UInt8 → Int}
    {protocol identification rounds : Nat} {payload packet : List UInt8}
    {packets : List (Int × List UInt8)} {res card : Int}
    (hsent : h.ipSendTo arp send stack dst protocol identification payload rounds =
      some (packets, res)) (hpacket : (card, packet) ∈ packets) :
    ∃ out, h.ipRoute arp stack dst = .ok out ∧ out.card = card ∧ sourceOf packet = out.ip := by
  rw [ipSendTo] at hsent
  split at hsent
  · obtain ⟨rfl, -⟩ := Prod.mk.inj (Option.some.inj hsent)
    cases hpacket
  · rename_i out hroute
    rw [Option.bind_eq_bind, Option.bind_eq_some_iff] at hsent
    obtain ⟨⟨plain, res'⟩, hplain, hsent⟩ := hsent
    obtain ⟨rfl, -⟩ := Prod.mk.inj (Option.some.inj hsent)
    obtain ⟨packet', hpacket', heq⟩ := List.mem_map.mp hpacket
    obtain ⟨rfl, rfl⟩ := Prod.mk.inj heq
    exact ⟨out, hroute, rfl, sourceOf_ipSend hplain packet' hpacket'⟩

end NetHost

/-- For every packet that goes out over a card, the address `udp_send` takes from
`get_source_ip_for` is the source address in the header exactly when the destination is not
the broadcast address, or the card of its route has the address of `broadcast_card`, or it
has no route and `broadcast_card` has no address. -/
theorem udp_source_agrees_iff {netDriverIndex : BitVec 32} {ops : List RouteOp} {h : NetHost}
    (htable : h.table = routesAfter netDriverIndex ops) {arp : IpAddr → Int → Int × MacAddr}
    {send : Outgoing → List UInt8 → Int} {stack stack' dst : IpAddr}
    {protocol identification rounds : Nat} {payload packet : List UInt8}
    {packets : List (Int × List UInt8)} {res card : Int}
    (hsent : h.ipSendTo arp send stack dst protocol identification payload rounds =
      some (packets, res)) (hpacket : (card, packet) ∈ packets) (hexists : h.Exists card) :
    h.getSourceIpFor stack' dst = sourceOf packet ↔
      dst ≠ ipBroadcastAddr ∨
      (∃ route, (routesAfter netDriverIndex ops).longestMatch dst = some route ∧
        h.getIp route.card stack' = h.getIp h.broadcastCard stack') ∨
      ((routesAfter netDriverIndex ops).longestMatch dst = none ∧
        h.getIp h.broadcastCard stack' = zeroIp) := by
  obtain ⟨out, hroute, rfl, hsource⟩ := NetHost.ipSendTo_mem hsent hpacket
  obtain ⟨hip, hcard⟩ := NetHost.ipRoute_card hroute
  rw [hsource, hip, NetHost.getIp_of_exists hexists stack stack', NetHost.getSourceIpFor,
    RouteTable.bestRoute_eq, htable]
  rw [RouteTable.bestRoute_eq, htable] at hcard
  rcases hcard with ⟨hdst, hcard⟩ | ⟨hdst, route, hbest, hcard⟩
  · rw [hcard]
    cases hbest : (routesAfter netDriverIndex ops).longestMatch dst with
    | none => simp [hdst, eq_comm]
    | some route => simp [hdst]
  · rw [hbest, hcard]
    exact ⟨fun _ => .inl hdst, fun _ => rfl⟩

/-- A host without routes, whose one card has this address. -/
def routeless (ip : IpAddr) : NetHost := ⟨[ip], routesAfter 0 [], 0⟩

/-- A default route over the first card, and a network at the second one. -/
def twoRoutes : List RouteOp :=
  [.add zeroIp ⟨10, 0, 0, 9⟩ zeroIp 0, .add ⟨192, 168, 0, 0⟩ zeroIp ⟨255, 255, 0, 0⟩ 1]

def twoCards : NetHost := ⟨[⟨10, 0, 0, 1⟩, ⟨192, 168, 0, 1⟩], routesAfter 0 twoRoutes, 0⟩

/-- A packet to a host of the network, which both routes match. -/
theorem udp_source_agrees_iff_longest :
    ∃ packet, twoCards.ipSendTo (fun _ _ => (0, zeroMac)) (fun _ _ => 0) zeroIp
        ⟨192, 168, 0, 5⟩ ipProtoUdp 1 (List.replicate 8 0) 0 = some ([(1, packet)], 0) ∧
      twoCards.getSourceIpFor zeroIp ⟨192, 168, 0, 5⟩ = sourceOf packet ∧
      sourceOf packet = ⟨192, 168, 0, 1⟩ := by
  have hsent : twoCards.ipSendTo (fun _ _ => (0, zeroMac)) (fun _ _ => 0) zeroIp
      ⟨192, 168, 0, 5⟩ ipProtoUdp 1 (List.replicate 8 0) 0 =
        some ([(1, sealedHeader 28 1 ipFlagDf ipProtoUdp ⟨192, 168, 0, 1⟩ ⟨192, 168, 0, 5⟩ ++
          List.replicate 8 0)], 0) := by decide +kernel
  exact ⟨_, hsent, (udp_source_agrees_iff rfl hsent (List.mem_singleton_self _)
    (by decide)).mpr (.inl (by decide)), rfl⟩

/-- A broadcast without a route: the header has the address of the card, and the checksum is
taken with 0.0.0.0. -/
theorem broadcast_source_differs :
    ∃ packet, (routeless ⟨10, 0, 0, 1⟩).ipSendTo (fun _ _ => (0, zeroMac)) (fun _ _ => 0) zeroIp
        ipBroadcastAddr ipProtoUdp 1 (List.replicate 8 0) 0 = some ([(0, packet)], 0) ∧
      (routeless ⟨10, 0, 0, 1⟩).Exists 0 ∧ sourceOf packet = ⟨10, 0, 0, 1⟩ ∧
      (routeless ⟨10, 0, 0, 1⟩).getSourceIpFor zeroIp ipBroadcastAddr = zeroIp :=
  ⟨_, rfl, by decide, rfl, rfl⟩

end GlitchedOS
