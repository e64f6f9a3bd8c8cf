/-
Who owns a UDP port.  A call that binds a socket, by `bind` or automatically, makes
the port its own until the socket is bound again, unbound or closed; the bytes of
`udp_ports_open` should say which ports are owned.
-/
import GlitchedOS.Lib.Ownership
import GlitchedOS.Lib.Run
import GlitchedOS.Net.Socket

namespace GlitchedOS

/-- The network with the port each socket is bound to. -/
structure BoundNet where
  net : Net
  bound : Nat → Option UInt16

/-- What a call makes of the ports sockets are bound to. -/
def NetOp.bounds (n : Net) (bound : Nat → Option UInt16) :
    NetOp → Nat → Option UInt16
  | .socket domain type protocol new =>
      if (n.socket domain type protocol new).1 < 0 then bound
      else Function.update bound new none
  | .bind _ none => bound
  | .bind s (some addr) => Function.update bound s (some addr.port)
  | .unbind s | .socketClose s => Function.update bound s none
  | .recvfrom s _ _ | .sendto s =>
      if (n.sockets s).bindAddr.type ≠ 0 then bound
      else match n.freePort with
      | none => bound
      | some port => Function.update bound s (some port)
  | .udpReceived _ _ _ _ => bound

def BoundNet.step (st : BoundNet) (op : NetOp) : BoundNet :=
  ⟨op.run st.net, op.bounds st.net st.bound⟩

namespace BoundNet

variable (st : BoundNet)

/-- The socket `s` is live and bound to `p`. -/
def Owns (s : Nat) (p : UInt16) : Prop := s ∈ st.net.live ∧ st.bound s = some p

/-- Exactly the ports live sockets are bound to are open, each to one socket. -/
def PortsExact : Prop := ExactlyOwned st.net.portsOpen st.Owns

/-- Live sockets are UDP sockets, and one that is bound has the port recorded. -/
structure Recorded : Prop where
  udp : ∀ s ∈ st.net.live, st.net.isUdp s = true
  port : ∀ s p, st.Owns s p → (st.net.sockets s).bindAddr.port = p

/-- The port that `closePort` would close is the socket's own. -/
def ClosesOwn (s : Nat) : Prop :=
  (st.net.sockets s).bindAddr.type ≠ 0 →
    st.net.portsOpen (st.net.sockets s).bindAddr.port = true →
    st.bound s = some (st.net.sockets s).bindAddr.port

/-- The condition under which a call keeps the ports exact. -/
def KeepsPorts : NetOp → Prop
  | .bind s (some addr) => st.ClosesOwn s ∧
      ((st.net.sockets s).bindAddr.type = 0 →
        st.bound s = none ∨ st.bound s = some addr.port) ∧
      (st.net.portsOpen addr.port = false ∨ st.bound s = some addr.port)
  | .unbind s | .socketClose s => st.ClosesOwn s ∧
      ((st.net.sockets s).bindAddr.type = 0 → st.bound s = none)
  | .recvfrom s _ _ | .sendto s => (st.net.sockets s).bindAddr.type = 0 →
      st.bound s = none ∨ st.net.freePort = none
  | _ => True

end BoundNet

namespace Net

variable (n : Net)

theorem udpOpen_apply (port p : UInt16) :
    (n.udpOpen port).2.portsOpen p = (n.portsOpen p || decide (p = port)) := by
  rw [udpOpen]
  split
  · rename_i hopen
    by_cases hp : p = port
    · rw [hp, hopen]
      rfl
    · simp [hp]
  · by_cases hp : p = port
    · simp [hp]
    · simp [hp]

theorem udpOpen_frame (port : UInt16) : (n.udpOpen port).2.sockets = n.sockets ∧
    (n.udpOpen port).2.live = n.live := by
  rw [udpOpen]
  split <;> exact ⟨rfl, rfl⟩

theorem closePort_frame (s : Nat) : (n.closePort s).sockets = n.sockets ∧
    (n.closePort s).live = n.live := by
  rw [closePort]
  split <;> exact ⟨rfl, rfl⟩

theorem closePort_apply (s : Nat) (p : UInt16) : (n.closePort s).portsOpen p =
    (n.portsOpen p && !decide ((n.sockets s).bindAddr.type ≠ 0 ∧
      p = (n.sockets s).bindAddr.port)) := by
  rw [closePort]
  split
  · rename_i htype
    by_cases hp : p = (n.sockets s).bindAddr.port
    · rw [udpClose]
      simp [hp, htype]
    · rw [udpClose]
      simp [hp]
  · rename_i htype
    simp [htype]

theorem setBindAddr_apply (s : Nat) (addr : SockAddr) (t : Nat) :
    ((n.setBindAddr s addr).sockets t) =
      if t = s then { n.sockets s with bindAddr := addr } else n.sockets t :=
  Function.update_apply _ _ _ _

theorem addSocket_apply (new : Nat) (sock : Socket) (t : Nat) :
    (n.addSocket new sock).sockets t = if t = new then sock else n.sockets t :=
  Function.update_apply _ _ _ _

theorem udpGetPacket_net (port : UInt16) (len : Nat) {peek : BitVec 32}
    (hpeek : peek ≠ 0#32) : (n.udpGetPacket port len peek).2 = n := by
  unfold udpGetPacket
  generalize n.findPacket port = found
  cases found with
  | none => rfl
  | some i =>
      dsimp only
      rw [if_neg hpeek]

/-- `recvfrom` adds `MSG_PEEK` to its flags, and so takes nothing. -/
theorem recvfrom_net {s : Nat} (hs : n.isUdp s = true) (len : Nat)
    (flags : BitVec 32) : (n.recvfrom s len flags).2 = n.autoBind s := by
  have hpeek : flags ||| msgPeek ≠ 0#32 := fun heq =>
    absurd (BitVec.or_eq_zero_iff.mp heq).2 (by decide)
  unfold recvfrom
  rw [hs]
  simp only [Bool.not_true, Bool.false_eq_true, if_false]
  exact udpGetPacket_net _ _ len hpeek

theorem freePort_spec {port : UInt16} (h : n.freePort = some port) :
    n.portsOpen port = false := by
  simpa using List.find?_some h

end Net

namespace BoundNet

variable {st : BoundNet}

/-- Another socket is bound, or none, and the live sockets stay. -/
theorem owns_update {net : Net} {s : Nat} {b : Option UInt16}
    (hlive : net.live = st.net.live) (t : Nat) (p : UInt16) :
    (BoundNet.mk net (Function.update st.bound s b)).Owns t p ↔
      (t = s ∧ s ∈ st.net.live ∧ b = some p) ∨ (t ≠ s ∧ st.Owns t p) := by
  rw [Owns, Owns]
  dsimp only
  rw [hlive, Function.update_apply]
  by_cases hts : t = s
  · subst hts
    simp
  · simp [hts]

theorem PortsExact.congr (h : st.PortsExact) {st' : BoundNet}
    (hopen : st'.net.portsOpen = st.net.portsOpen)
    (howns : ∀ t p, st'.Owns t p ↔ st.Owns t p) : st'.PortsExact where
  opened := fun p => by
    rw [hopen, h.opened p]
    exact exists_congr fun t => (howns t p).symm
  once := fun s t p hs ht => h.once s t p ((howns s p).mp hs) ((howns t p).mp ht)

theorem isUdp_congr {n n' : Net} {s : Nat}
    (h : n'.sockets s = { n.sockets s with bindAddr := (n'.sockets s).bindAddr }) :
    n'.isUdp s = n.isUdp s := by
  rw [Net.isUdp, Net.isUdp, h]

theorem drop_iff (h : st.PortsExact) (hr : st.Recorded) {s : Nat}
    (hs : s ∈ st.net.live) {st' : BoundNet}
    (hopen : st'.net.portsOpen = (st.net.closePort s).portsOpen)
    (howns : ∀ t p, st'.Owns t p ↔ t ≠ s ∧ st.Owns t p) :
    st'.PortsExact ↔ st.ClosesOwn s ∧
      ((st.net.sockets s).bindAddr.type = 0 → st.bound s = none) := by
  have hport : ∀ p, st.bound s = some p → (st.net.sockets s).bindAddr.port = p :=
    fun p hp => hr.port s p ⟨hs, hp⟩
  have hopened : ∀ p, st'.net.portsOpen p = true ↔ st.net.portsOpen p = true ∧
      ¬((st.net.sockets s).bindAddr.type ≠ 0 ∧
        p = (st.net.sockets s).bindAddr.port) := fun p => by
    rw [hopen, Net.closePort_apply, Bool.and_eq_true, Bool.not_eq_true',
      decide_eq_false_iff_not]
  rw [PortsExact, ExactlyOwned.drop_iff h hopened howns]
  constructor
  · rintro ⟨hown, hclosed⟩
    refine ⟨fun htype hopened => (hown _ ⟨htype, rfl⟩ hopened).2, fun htype => ?_⟩
    cases hb : st.bound s with
    | none => rfl
    | some p => exact absurd htype (hclosed p ⟨hs, hb⟩).1
  · rintro ⟨hown, hnone⟩
    refine ⟨?_, fun p hp => ⟨fun htype => ?_, (hport p hp.2).symm⟩⟩
    · rintro p ⟨htype, rfl⟩ hopened
      exact ⟨hs, hown htype hopened⟩
    · rw [Owns, hnone htype] at hp
      cases hp.2

theorem autoBind_iff (h : st.PortsExact) {s : Nat} (hs : s ∈ st.net.live)
    {port : UInt16} (hfree : st.net.freePort = some port) {st' : BoundNet}
    (hopen : st'.net.portsOpen = (st.net.udpOpen port).2.portsOpen)
    (howns : ∀ t p, st'.Owns t p ↔ (t = s ∧ s ∈ st.net.live ∧ some port = some p) ∨
      (t ≠ s ∧ st.Owns t p)) : st'.PortsExact ↔ st.bound s = none := by
  have hclosed := st.net.freePort_spec hfree
  have hopened : ∀ p, st'.net.portsOpen p = true ↔
      (st.net.portsOpen p = true ∧ ¬False) ∨ p = port := fun p => by
    rw [hopen, Net.udpOpen_apply]
    simp
  have howned : ∀ t p, st'.Owns t p ↔ (t = s ∧ p = port) ∨ (t ≠ s ∧ st.Owns t p) :=
    fun t p => by
      rw [howns]
      simp [hs, eq_comm]
  rw [PortsExact, ExactlyOwned.exchange_iff h hopened howned]
  constructor
  · rintro ⟨-, hkept, -⟩
    cases hb : st.bound s with
    | none => rfl
    | some p =>
        obtain rfl := (hkept p ⟨hs, hb⟩).resolve_left id
        rw [(h.opened p).mpr ⟨s, hs, hb⟩] at hclosed
        cases hclosed
  · intro hnone
    refine ⟨fun p hp => hp.elim, fun p hp => ?_, fun hopened => ?_⟩
    · rw [Owns, hnone] at hp
      cases hp.2
    · rw [hclosed] at hopened
      cases hopened

theorem bind_iff (h : st.PortsExact) (hr : st.Recorded) {s : Nat}
    (hs : s ∈ st.net.live) {addr : SockAddr} {st' : BoundNet}
    (hopen : ∀ p, st'.net.portsOpen p =
      ((st.net.closePort s).portsOpen p || decide (p = addr.port)))
    (howns : ∀ t p, st'.Owns t p ↔
      (t = s ∧ s ∈ st.net.live ∧ some addr.port = some p) ∨ (t ≠ s ∧ st.Owns t p)) :
    st'.PortsExact ↔ st.KeepsPorts (.bind s (some addr)) := by
  have hport : ∀ p, st.bound s = some p → (st.net.sockets s).bindAddr.port = p :=
    fun p hp => hr.port s p ⟨hs, hp⟩
  have hopened : ∀ p, st'.net.portsOpen p = true ↔ (st.net.portsOpen p = true ∧
      ¬((st.net.sockets s).bindAddr.type ≠ 0 ∧
        p = (st.net.sockets s).bindAddr.port)) ∨ p = addr.port := fun p => by
    rw [hopen, Net.closePort_apply, Bool.or_eq_true, Bool.and_eq_true,
      Bool.not_eq_true', decide_eq_false_iff_not, decide_eq_true_iff]
  have howned : ∀ t p, st'.Owns t p ↔
      (t = s ∧ p = addr.port) ∨ (t ≠ s ∧ st.Owns t p) := fun t p => by
    rw [howns]
    simp [hs, eq_comm]
  rw [PortsExact, ExactlyOwned.exchange_iff h hopened howned, KeepsPorts]
  constructor
  · rintro ⟨hown, hkept, hfree⟩
    refine ⟨fun htype hopened => (hown _ ⟨htype, rfl⟩ hopened).2, fun htype => ?_, ?_⟩
    · cases hb : st.bound s with
      | none => exact Or.inl rfl
      | some p =>
          have hp := (hkept p ⟨hs, hb⟩).resolve_left fun hc => hc.1 htype
          exact Or.inr (congrArg some hp)
    · cases hopened : st.net.portsOpen addr.port with
      | false => exact Or.inl rfl
      | true => exact Or.inr (hfree hopened).2
  · rintro ⟨hown, hkept, hfree⟩
    refine ⟨?_, fun p hp => ?_, fun hopened => ⟨hs, ?_⟩⟩
    · rintro p ⟨htype, rfl⟩ hopened
      exact ⟨hs, hown htype hopened⟩
    · by_cases htype : (st.net.sockets s).bindAddr.type = 0
      · rcases hkept htype with hnone | hsame
        · rw [Owns, hnone] at hp
          cases hp.2
        · exact Or.inr (Option.some.inj (hp.2.symm.trans hsame))
      · exact Or.inl ⟨htype, (hport p hp.2).symm⟩
    · refine hfree.resolve_left fun hclosed => ?_
      rw [hopened] at hclosed
      cases hclosed

end BoundNet

namespace BoundNet

variable {st : BoundNet}

/-- A call on one socket that leaves the live sockets and what they are. -/
theorem Recorded.update (h : st.Recorded) {net : Net} {s : Nat} {b : Option UInt16}
    (hlive : ∀ t ∈ net.live, t ∈ st.net.live)
    (hother : ∀ t, t ≠ s → net.sockets t = st.net.sockets t)
    (hself : net.sockets s =
      { st.net.sockets s with bindAddr := (net.sockets s).bindAddr })
    (hport : ∀ p, b = some p → (net.sockets s).bindAddr.port = p) :
    (BoundNet.mk net (Function.update st.bound s b)).Recorded := by
  refine ⟨fun t ht => ?_, fun t p ht => ?_⟩
  · refine (isUdp_congr ?_).trans (h.udp t (hlive t ht))
    by_cases hts : t = s
    · rw [hts]
      exact hself
    · rw [hother t hts]
  · obtain ⟨hmem, hbound⟩ := ht
    dsimp only at hbound ⊢
    rw [Function.update_apply] at hbound
    split at hbound
    · rename_i hts
      rw [hts]
      exact hport p hbound
    · rename_i hts
      rw [hother t hts]
      exact h.port t p ⟨hlive t hmem, hbound⟩

/-- One call: the records stay right, and the ports stay exact under the
condition. -/
theorem step_iff {op : NetOp} (hr : st.Recorded) (h : st.PortsExact)
    (henabled : op.enabled st.net) :
    (st.step op).Recorded ∧ ((st.step op).PortsExact ↔ st.KeepsPorts op) := by
  have hrefl : ∀ s : Nat, st.net.sockets s =
      { st.net.sockets s with bindAddr := (st.net.sockets s).bindAddr } := fun _ => rfl
  have hauto : ∀ s ∈ st.net.live,
      (BoundNet.mk (st.net.autoBind s) ((NetOp.sendto s).bounds st.net
        st.bound)).Recorded ∧
      ((BoundNet.mk (st.net.autoBind s) ((NetOp.sendto s).bounds st.net
        st.bound)).PortsExact ↔ st.KeepsPorts (.sendto s)) := by
    intro s hs
    rw [KeepsPorts, NetOp.bounds, Net.autoBind]
    by_cases htype : (st.net.sockets s).bindAddr.type ≠ 0
    · rw [if_pos htype, if_pos htype]
      exact ⟨hr, iff_of_true h fun hzero => absurd hzero htype⟩
    rw [if_neg htype, if_neg htype]
    cases hfree : st.net.freePort with
    | none => exact ⟨hr, iff_of_true h fun _ => Or.inr rfl⟩
    | some port =>
        obtain ⟨hsock, hlive⟩ := st.net.udpOpen_frame port
        have hset := (st.net.udpOpen port).2.setBindAddr_apply s
          ⟨UInt8.ofNat 1, ⟨0, 0, 0, 0⟩, port⟩
        refine ⟨hr.update (fun t ht => hlive ▸ ht) (fun t hts => ?_) ?_ fun p hp => ?_,
          ?_⟩
        · rw [hset, if_neg hts, hsock]
        · rw [hset, if_pos rfl, hsock]
        · rw [hset, if_pos rfl]
          exact Option.some.inj hp
        · show (BoundNet.mk ((st.net.udpOpen port).2.setBindAddr s _)
            (Function.update st.bound s (some port))).PortsExact ↔ _
          refine (autoBind_iff h hs hfree rfl (owns_update hlive)).trans ?_
          simp [not_not.mp htype]
  cases op with
  | socket domain type protocol new =>
      have hnew : new ∉ st.net.live := henabled
      rw [step, NetOp.run, NetOp.bounds, Net.socket]
      split
      · rw [if_pos (show eInval < 0 by decide)]
        exact ⟨hr, iff_of_true h trivial⟩
      split
      · rw [if_pos (show eInval < 0 by decide)]
        exact ⟨hr, iff_of_true h trivial⟩
      split
      · rw [if_pos (show eInval < 0 by decide)]
        exact ⟨hr, iff_of_true h trivial⟩
      rename_i hdomain htype hproto
      rw [if_neg (show ¬(0 : Int) < 0 by decide)]
      have hset := st.net.addSocket_apply new ⟨domain, type, protocol, Net.zeroAddr⟩
      have howns : ∀ t p, (BoundNet.mk
          (st.net.addSocket new ⟨domain, type, protocol, Net.zeroAddr⟩)
          (Function.update st.bound new none)).Owns t p ↔ st.Owns t p := by
        intro t p
        rw [Owns, Owns]
        dsimp only
        rw [Function.update_apply, Net.addSocket, Finset.mem_insert]
        by_cases htn : t = new
        · subst htn
          simp [hnew]
        · simp [htn]
      refine ⟨⟨fun t ht => ?_, fun t p ht => ?_⟩, ?_⟩
      · dsimp only at ht ⊢
        rw [Net.isUdp, hset]
        by_cases htn : t = new
        · rw [if_pos htn]
          simpa using ⟨not_not.mp hdomain, not_not.mp htype, not_not.mp hproto⟩
        · rw [if_neg htn]
          exact hr.udp t (Finset.mem_of_mem_insert_of_ne ht htn)
      · have ht₀ := (howns t p).mp ht
        have htn : t ≠ new := fun heq => hnew (heq ▸ ht₀.1)
        dsimp only
        rw [hset, if_neg htn]
        exact hr.port t p ht₀
      · exact iff_of_true (h.congr rfl howns) trivial
  | bind s addr =>
      have hs : s ∈ st.net.live := henabled
      cases addr with
      | none =>
          rw [step, NetOp.run, NetOp.bounds, Net.bind, hr.udp s hs]
          exact ⟨hr, iff_of_true h trivial⟩
      | some addr =>
          rw [step, NetOp.run, NetOp.bounds, Net.bind, hr.udp s hs]
          simp only [Bool.not_true, Bool.false_eq_true, if_false]
          obtain ⟨hsock, hlive⟩ := Net.udpOpen_frame
            ((st.net.closePort s).setBindAddr s addr) addr.port
          obtain ⟨hsock₁, hlive₁⟩ := st.net.closePort_frame s
          have hset := (st.net.closePort s).setBindAddr_apply s addr
          have hlive₂ := hlive.trans hlive₁
          refine ⟨hr.update (fun t ht => hlive₂ ▸ ht) (fun t hts => ?_) ?_
            fun p hp => ?_, ?_⟩
          · rw [hsock, hset, if_neg hts, hsock₁]
          · rw [hsock, hset, if_pos rfl, hsock₁]
          · rw [hsock, hset, if_pos rfl]
            exact Option.some.inj hp
          · refine bind_iff h hr hs (fun p => ?_) (owns_update hlive₂)
            dsimp only
            rw [Net.udpOpen_apply]
            rfl
  | unbind s =>
      have hs : s ∈ st.net.live := henabled
      rw [step, NetOp.run, NetOp.bounds, Net.unbind, hr.udp s hs]
      simp only [Bool.not_true, Bool.false_eq_true, if_false]
      obtain ⟨hsock, hlive⟩ := st.net.closePort_frame s
      refine ⟨hr.update (fun t ht => hlive ▸ ht) (fun t _ => by rw [hsock])
        (by rw [hsock]) (fun p hp => by cases hp), ?_⟩
      refine drop_iff h hr hs rfl fun t p => ?_
      rw [owns_update hlive]
      simp
  | recvfrom s len flags =>
      have hs : s ∈ st.net.live := henabled
      have hnet := st.net.recvfrom_net (hr.udp s hs) len flags
      rw [step, NetOp.run, hnet]
      exact hauto s hs
  | sendto s =>
      have hs : s ∈ st.net.live := henabled
      rw [step, NetOp.run, Net.sendto, hr.udp s hs]
      exact hauto s hs
  | socketClose s =>
      have hs : s ∈ st.net.live := henabled
      rw [step, NetOp.run, NetOp.bounds, Net.socketClose, hr.udp s hs]
      simp only [Bool.not_true, Bool.false_eq_true, if_false]
      obtain ⟨hsock, hlive⟩ := st.net.closePort_frame s
      refine ⟨hr.update (fun t ht => Finset.mem_of_mem_erase ht)
        (fun t _ => by dsimp only; rw [hsock]) (by dsimp only; rw [hsock])
        (fun p hp => by cases hp), ?_⟩
      refine drop_iff h hr hs rfl fun t p => ?_
      rw [Owns, Owns]
      dsimp only
      rw [Function.update_apply, Finset.mem_erase]
      by_cases hts : t = s
      · simp [hts]
      · simp [hts]
  | udpReceived packet sender dest len =>
      have hframe : (st.net.udpReceived packet sender dest len).sockets =
          st.net.sockets ∧ (st.net.udpReceived packet sender dest len).live =
          st.net.live ∧ (st.net.udpReceived packet sender dest len).portsOpen =
          st.net.portsOpen := by
        rw [Net.udpReceived]
        split <;> exact ⟨rfl, rfl, rfl⟩
      obtain ⟨hsock, hlive, hopen⟩ := hframe
      have howns : ∀ t p, (st.step (.udpReceived packet sender dest len)).Owns t p ↔
          st.Owns t p := fun t p => by
        rw [step, Owns, Owns, NetOp.run, hlive]
        rfl
      refine ⟨⟨fun t ht => ?_, fun t p ht => ?_⟩, ?_⟩
      · rw [step, NetOp.run, Net.isUdp, hsock]
        exact hr.udp t (hlive ▸ ht)
      · rw [step, NetOp.run, hsock]
        exact hr.port t p ((howns t p).mp ht)
      · exact iff_of_true (h.congr hopen howns) trivial

end BoundNet

def zeroBound : BoundNet := ⟨zeroNet, fun _ => none⟩

/-- Along a run from the start, the ports stay exact if and only if every call
meets the condition. -/
theorem ports_exact_iff {ops : List NetOp}
    (henabled : Along BoundNet.step (fun st op => op.enabled st.net) zeroBound ops) :
    Along BoundNet.step (fun st op => (st.step op).PortsExact) zeroBound ops ↔
      Along BoundNet.step BoundNet.KeepsPorts zeroBound ops := by
  have hstart : zeroBound.PortsExact := by
    refine ⟨fun p => ?_, fun s t p hs => absurd hs.1 (Finset.notMem_empty s)⟩
    refine iff_of_false Bool.false_ne_true ?_
    rintro ⟨s, hs⟩
    exact absurd hs.1 (Finset.notMem_empty s)
  have hrecorded : zeroBound.Recorded :=
    ⟨fun s hs => absurd hs (Finset.notMem_empty s),
      fun s p hs => absurd hs.1 (Finset.notMem_empty s)⟩
  exact Along.good_iff BoundNet.Recorded BoundNet.PortsExact
    (fun st op hr h hen => BoundNet.step_iff hr h hen) hrecorded hstart henabled

def boundOnce : List NetOp :=
  [.socket 1 1 1 0, .bind 0 (some ⟨1, ⟨0, 0, 0, 0⟩, 7⟩), .socketClose 0]

theorem ports_exact_iff_once :
    Along BoundNet.step (fun st op => op.enabled st.net) zeroBound boundOnce ∧
      Along BoundNet.step (fun st op => (st.step op).PortsExact) zeroBound
        boundOnce := by
  have henabled : Along BoundNet.step (fun st op => op.enabled st.net) zeroBound
      boundOnce := ⟨by decide, by decide, by decide, trivial⟩
  refine ⟨henabled, (ports_exact_iff henabled).mpr ⟨trivial, ⟨?_, ?_, ?_⟩, ⟨?_, ?_⟩,
    trivial⟩⟩
  · exact fun htype => absurd rfl htype
  · exact fun _ => Or.inl rfl
  · exact Or.inl rfl
  · exact fun _ _ => rfl
  · exact fun htype => absurd htype (by decide)

def boundTwice : List NetOp :=
  [.socket 1 1 1 0, .socket 1 1 1 1, .bind 0 (some ⟨1, ⟨0, 0, 0, 0⟩, 7⟩),
    .bind 1 (some ⟨1, ⟨0, 0, 0, 0⟩, 7⟩)]

theorem boundTwice_shared :
    Along BoundNet.step (fun st op => op.enabled st.net) zeroBound boundTwice ∧
      ¬Along BoundNet.step (fun st op => (st.step op).PortsExact) zeroBound
        boundTwice := by
  refine ⟨⟨by decide, by decide, by decide, by decide, trivial⟩, ?_⟩
  rintro ⟨-, -, -, hlast, -⟩
  have hshared := hlast.once 0 1 7 ⟨by decide, rfl⟩ ⟨by decide, rfl⟩
  cases hshared

end GlitchedOS
