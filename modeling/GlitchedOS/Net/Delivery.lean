/-
Which datagram a `recvfrom` returns, and to whom.  The trace beside the network
numbers the packets stored, with the ports sockets were bound to at that moment,
and lists what `recvfrom` returned.
-/
import GlitchedOS.Net.Ports

namespace GlitchedOS

namespace Net

variable (n : Net)
variable {packet : Nat → UInt8} {sender dest : IpAddr} {len : Int} {i : Nat}

/-- The port `recvfrom` reads from. -/
def readPort (s : Nat) : UInt16 := ((n.autoBind s).sockets s).bindAddr.port

/-- The entry of the buffer a `recvfrom` returns, if it returns one. -/
def returnedSlot (s : Nat) : Option Nat :=
  if n.isUdp s then (n.autoBind s).findPacket (n.readPort s) else none

end Net

/-- A packet stored by `udp_received`: its number, its destination port, and what
each socket was bound to when it arrived. -/
structure Arrival where
  number : Nat
  port : UInt16
  bound : Nat → Option UInt16

/-- A datagram that `recvfrom` returned.  The address of a socket may be used again,
so the packets stored before the socket was made are counted. -/
structure Return where
  socket : Nat
  born : Nat
  datagram : Arrival
  peek : Bool

structure TracedNet extends BoundNet where
  stored : Nat
  born : Nat → Nat
  /-- The datagram in each entry of the buffer. -/
  entry : Nat → Arrival
  /-- The first packet ever stored for a port. -/
  firstTo : UInt16 → Option Arrival
  /-- A call without `MSG_PEEK` has read the port since that packet came. -/
  taken : UInt16 → Bool
  returns : List Return

def isPeek (flags : BitVec 32) : Bool := flags &&& msgPeek ≠ 0#32

namespace TracedNet

variable (st : TracedNet)

def arriving (packet : Nat → UInt8) : Arrival :=
  ⟨st.stored, UInt16.ofNat (memWord packet 2), st.bound⟩

def firstWith (d : Arrival) : UInt16 → Option Arrival :=
  if st.firstTo d.port = none then Function.update st.firstTo d.port (some d)
  else st.firstTo

/-- The ports read without `MSG_PEEK`, after a `recvfrom`. -/
def takenBy (s : Nat) (flags : BitVec 32) : UInt16 → Bool :=
  if st.net.isUdp s = true ∧ isPeek flags = false ∧
      st.firstTo (st.net.readPort s) ≠ none then
    Function.update st.taken (st.net.readPort s) true
  else st.taken

def returning (s : Nat) (flags : BitVec 32) : List Return :=
  match st.net.returnedSlot s with
  | none => st.returns
  | some i => ⟨s, st.born s, st.entry i, isPeek flags⟩ :: st.returns

def step (op : NetOp) : TracedNet :=
  let st' := { st with toBoundNet := st.toBoundNet.step op }
  match op with
  | .socket domain type protocol new =>
      if (st.net.socket domain type protocol new).1 < 0 then st'
      else { st' with born := Function.update st.born new st.stored }
  | .udpReceived packet sender dest len =>
      match st.net.receiveSlot packet sender dest len with
      | none => st'
      | some i => { st' with
          stored := st.stored + 1
          entry := Function.update st.entry i (st.arriving packet)
          firstTo := st.firstWith (st.arriving packet) }
  | .recvfrom s _ flags => { st' with
      taken := st.takenBy s flags
      returns := st.returning s flags }
  | _ => st'

/-- No datagram is returned twice to calls without `MSG_PEEK`, and each only to a
socket that was there and bound to its port when it arrived. -/
structure DeliversRight : Prop where
  once : st.returns.Pairwise fun r r' =>
    r.peek = true ∨ r'.peek = true ∨ r.datagram.number ≠ r'.datagram.number
  bound : ∀ r ∈ st.returns, r.datagram.bound r.socket = some r.datagram.port ∧
    r.born ≤ r.datagram.number

/-- The entry a packet is stored in holds it. -/
def Fits : NetOp → Prop
  | .udpReceived _ _ _ len => len ≤ 1480
  | _ => True

/-- The condition on a call: a `recvfrom` is made by a socket that was bound to the
port when the first packet for it arrived, and without `MSG_PEEK` once at most. -/
def ReadsOnce : NetOp → Prop
  | .recvfrom s _ flags => st.net.isUdp s = true →
      ∀ d, st.firstTo (st.net.readPort s) = some d →
        (isPeek flags = true ∨ st.taken (st.net.readPort s) = false) ∧
          d.bound s = some d.port ∧ st.born s ≤ d.number
  | _ => True

/-- What the trace says of the buffer: it is filled from its start, and what a port
finds in it is the first packet that came for the port. -/
structure Traces : Prop where
  packed : ∀ j < udpBufferSize, st.net.lengthAt j ≠ 0 →
    ∀ i < j, st.net.lengthAt i ≠ 0
  first : ∀ p, st.firstTo p = (st.net.findPacket p).map st.entry
  port : ∀ p d, st.firstTo p = some d → d.port = p ∧ d.number < st.stored
  apart : ∀ p q d e, st.firstTo p = some d → st.firstTo q = some e →
    d.number = e.number → p = q
  returned : ∀ r ∈ st.returns, st.firstTo r.datagram.port = some r.datagram
  taken : ∀ p, st.taken p = true ↔
    ∃ r ∈ st.returns, r.peek = false ∧ r.datagram.port = p

end TracedNet

/-! ### The buffer -/

namespace Net

variable {n : Net}

theorem autoBind_packetBuffer (s : Nat) :
    (n.autoBind s).packetBuffer = n.packetBuffer := by
  rw [autoBind]
  split
  · rfl
  · split
    · rfl
    · rw [setBindAddr, udpOpen]
      split <;> rfl

theorem closePort_packetBuffer (s : Nat) :
    (n.closePort s).packetBuffer = n.packetBuffer := by
  rw [closePort]
  split <;> rfl

theorem findPacket_congr {n' : Net} (h : n'.packetBuffer = n.packetBuffer)
    (p : UInt16) : n'.findPacket p = n.findPacket p := by
  unfold findPacket lengthAt destPortAt
  rw [h]

theorem lengthAt_congr {n' : Net} (h : n'.packetBuffer = n.packetBuffer)
    (i : Nat) : n'.lengthAt i = n.lengthAt i := by
  rw [lengthAt, lengthAt, h]

theorem returnedSlot_eq {s : Nat} (hs : n.isUdp s = true) :
    n.returnedSlot s = n.findPacket (n.readPort s) := by
  rw [returnedSlot, if_pos hs]
  exact findPacket_congr (autoBind_packetBuffer s) _

/-- Only the arrival of a packet writes to the buffer. -/
theorem run_packetBuffer {op : NetOp}
    (h : ∀ packet sender dest len, op ≠ .udpReceived packet sender dest len) :
    (op.run n).packetBuffer = n.packetBuffer := by
  cases op with
  | socket domain type protocol new =>
      rw [NetOp.run, socket]
      repeat' split
      all_goals rfl
  | bind s addr =>
      rw [NetOp.run, Net.bind.eq_def]
      split
      · rfl
      · cases addr with
        | none => rfl
        | some addr =>
            refine Eq.trans ?_ (closePort_packetBuffer s)
            dsimp only
            rw [udpOpen]
            split <;> rfl
  | unbind s =>
      rw [NetOp.run, unbind]
      split
      · rfl
      · exact closePort_packetBuffer s
  | recvfrom s len flags =>
      rw [NetOp.run]
      by_cases hs : n.isUdp s = true
      · rw [recvfrom_net n hs]
        exact autoBind_packetBuffer s
      · unfold recvfrom
        rw [if_pos (by simpa using hs)]
  | sendto s =>
      rw [NetOp.run, sendto]
      split
      · rfl
      · exact autoBind_packetBuffer s
  | socketClose s =>
      rw [NetOp.run, socketClose]
      split
      · rfl
      · exact closePort_packetBuffer s
  | udpReceived packet sender dest len => exact absurd rfl (h _ _ _ _)

/-- The entry a packet goes to is free, and those before it are not. -/
theorem receiveSlot_spec (h : n.receiveSlot packet sender dest len = some i) :
    8 ≤ len ∧ (memWord packet 4 : Int) = len ∧ i < udpBufferSize ∧
      n.lengthAt i = 0 ∧ ∀ j < i, n.lengthAt j ≠ 0 := by
  unfold receiveSlot at h
  split at h
  · cases h
  rename_i hlen
  split at h
  · cases h
  rename_i hfield
  split at h
  · cases h
  split at h
  · rw [List.find?_range_eq_some] at h
    obtain ⟨hfree, hlt, hbelow⟩ := h
    refine ⟨?_, not_not.mp hfield, List.mem_range.mp hlt, by simpa using hfree,
      fun j hj => by simpa using hbelow j hj⟩
    exact Int.not_lt.mp hlen
  · cases h

theorem memWord_lt (mem : Nat → UInt8) (a : Nat) : memWord mem a < 65536 := by
  have h1 := (mem a).toNat_lt
  have h2 := (mem (a + 1)).toNat_lt
  rw [memWord]
  omega

/-- A word of the header of an entry, after a packet is stored in one. -/
theorem storePacket_word {j k : Nat}
    {len : Nat} (hlen : 8 ≤ len) (hfits : len ≤ 1480) (hk : k ≤ 4) :
    memWord (n.storePacket i sender packet len).packetBuffer
        (udpSlotSize * j + 4 + k) =
      if j = i then memWord packet k
      else memWord n.packetBuffer (udpSlotSize * j + 4 + k) := by
  have hbyte : ∀ k ≤ 5, (n.storePacket i sender packet len).packetBuffer
      (udpSlotSize * j + 4 + k) =
      if j = i then packet k else n.packetBuffer (udpSlotSize * j + 4 + k) := by
    intro k hk
    rw [storePacket]
    dsimp only
    by_cases hj : j = i
    · subst hj
      rw [if_pos rfl, if_pos ⟨by omega, by omega⟩]
      congr 1
      omega
    · rw [if_neg hj]
      rw [udpSlotSize]
      rcases Nat.lt_or_gt_of_ne hj with hlt | hgt
      · rw [if_neg (by omega), if_neg (by omega)]
      · rw [if_neg (by omega), if_neg (by omega)]
  rw [memWord, hbyte k (by omega), Nat.add_assoc _ k 1, hbyte (k + 1) (by omega)]
  split <;> rfl

end Net

namespace Net

variable {n : Net}

/-- The packet stored is in the entry, and the other entries are as they were. -/
theorem udpReceived_words (h : n.receiveSlot packet sender dest len = some i)
    (hfits : len ≤ 1480) (j : Nat) :
    (n.udpReceived packet sender dest len).lengthAt j =
        (if j = i then len.toNat else n.lengthAt j) ∧
      (n.udpReceived packet sender dest len).destPortAt j =
        (if j = i then memWord packet 2 else n.destPortAt j) := by
  obtain ⟨hlen, hfield, -⟩ := receiveSlot_spec h
  have hword : ∀ k ≤ 4, memWord (n.udpReceived packet sender dest len).packetBuffer
      (udpSlotSize * j + 4 + k) = if j = i then memWord (zeroChecksum packet) k
        else memWord n.packetBuffer (udpSlotSize * j + 4 + k) := by
    intro k hk
    rw [udpReceived, h]
    exact storePacket_word (by omega) (by omega) hk
  refine ⟨?_, hword 2 (by decide)⟩
  have hlength : memWord (zeroChecksum packet) 4 = len.toNat := by
    have hsame : memWord (zeroChecksum packet) 4 = memWord packet 4 := rfl
    omega
  rw [← hlength]
  exact hword 4 (by decide)

theorem udpReceived_packed (h : n.receiveSlot packet sender dest len = some i)
    (hfits : len ≤ 1480)
    (hpacked : ∀ j < udpBufferSize, n.lengthAt j ≠ 0 → ∀ i < j, n.lengthAt i ≠ 0) :
    ∀ j < udpBufferSize, (n.udpReceived packet sender dest len).lengthAt j ≠ 0 →
      ∀ k < j, (n.udpReceived packet sender dest len).lengthAt k ≠ 0 := by
  obtain ⟨hlen, -, -, hfree, hbelow⟩ := receiveSlot_spec h
  intro j hj hne k hk
  rw [(udpReceived_words h hfits j).1] at hne
  rw [(udpReceived_words h hfits k).1]
  split
  · omega
  · by_cases hji : j = i
    · exact hbelow k (hji ▸ hk)
    · rw [if_neg hji] at hne
      exact hpacked j hj hne k hk

/-- A packet stored is found if none was found before. -/
theorem udpReceived_findPacket (h : n.receiveSlot packet sender dest len = some i)
    (hfits : len ≤ 1480)
    (hpacked : ∀ j < udpBufferSize, n.lengthAt j ≠ 0 → ∀ i < j, n.lengthAt i ≠ 0)
    (p : UInt16) : (n.udpReceived packet sender dest len).findPacket p =
      if n.findPacket p = none ∧ UInt16.ofNat (memWord packet 2) = p then some i
      else n.findPacket p := by
  obtain ⟨hlen, -, hi, hfree, hbelow⟩ := receiveSlot_spec h
  have hport : UInt16.ofNat (memWord packet 2) = p ↔ memWord packet 2 = p.toNat := by
    have hlt := memWord_lt packet 2
    constructor
    · rintro rfl
      exact (UInt16.toNat_ofNat_of_lt hlt).symm
    · intro heq
      rw [heq]
      exact UInt16.ofNat_toNat
  have hmatch : ∀ j, (decide ((n.udpReceived packet sender dest len).lengthAt j ≠ 0 ∧
      (n.udpReceived packet sender dest len).destPortAt j = p.toNat)) =
      if j = i then decide (UInt16.ofNat (memWord packet 2) = p)
      else decide (n.lengthAt j ≠ 0 ∧ n.destPortAt j = p.toNat) := by
    intro j
    obtain ⟨hl, hd⟩ := udpReceived_words h hfits j
    rw [hl, hd]
    split
    · rw [decide_eq_decide, hport]
      constructor
      · exact And.right
      · exact fun heq => ⟨by omega, heq⟩
    · rfl
  unfold findPacket
  simp only [hmatch]
  cases hfound : n.findPacket p with
  | some j =>
      unfold findPacket at hfound
      rw [hfound, if_neg (by simp)]
      rw [List.find?_range_eq_some] at hfound ⊢
      obtain ⟨hj, hlt, hfirst⟩ := hfound
      have hlength : n.lengthAt j ≠ 0 := (of_decide_eq_true hj).1
      have hne : j ≠ i := fun heq => hlength (heq ▸ hfree)
      refine ⟨by rw [if_neg hne]; exact hj, hlt, fun k hk => ?_⟩
      have hki : k ≠ i := fun heq =>
        hpacked j (List.mem_range.mp hlt) hlength k hk (heq ▸ hfree)
      rw [if_neg hki]
      exact hfirst k hk
  | none =>
      unfold findPacket at hfound
      have hnone := List.find?_eq_none.mp hfound
      rw [hfound]
      by_cases hp : UInt16.ofNat (memWord packet 2) = p
      · rw [if_pos ⟨rfl, hp⟩, List.find?_range_eq_some]
        refine ⟨by simpa using hp, List.mem_range.mpr hi, fun j hj => ?_⟩
        rw [if_neg (by omega)]
        have hj' := hnone j (List.mem_range.mpr (by omega))
        rw [Bool.not_eq_true] at hj'
        rw [hj']
        rfl
      · rw [if_neg (fun hc => hp hc.2), List.find?_eq_none]
        intro j hj
        split
        · simpa using hp
        · exact hnone j hj

end Net

/-! ### One call -/

namespace TracedNet

variable {st : TracedNet}

theorem step_toBoundNet (op : NetOp) :
    (st.step op).toBoundNet = st.toBoundNet.step op := by
  cases op with
  | socket domain type protocol new =>
      rw [step]
      split <;> rfl
  | udpReceived packet sender dest len =>
      rw [step]
      split <;> rfl
  | _ => rfl

/-- A call that leaves the buffer and the trace of it as they are. -/
theorem Traces.log (h : st.Traces) {st' : TracedNet}
    (hbuffer : st'.net.packetBuffer = st.net.packetBuffer)
    (hentry : st'.entry = st.entry) (hfirst : st'.firstTo = st.firstTo)
    (hstored : st'.stored = st.stored)
    (hreturned : ∀ r ∈ st'.returns, st.firstTo r.datagram.port = some r.datagram)
    (htaken : ∀ p, st'.taken p = true ↔
      ∃ r ∈ st'.returns, r.peek = false ∧ r.datagram.port = p) : st'.Traces where
  packed := fun j hj hne i hi => by
    rw [Net.lengthAt_congr hbuffer] at hne ⊢
    exact h.packed j hj hne i hi
  first := fun p => by
    rw [hfirst, hentry, Net.findPacket_congr hbuffer]
    exact h.first p
  port := fun p d hd => by
    rw [hstored]
    exact h.port p d (hfirst ▸ hd)
  apart := fun p q d e hd he => h.apart p q d e (hfirst ▸ hd) (hfirst ▸ he)
  returned := fun r hr => by
    rw [hfirst]
    exact hreturned r hr
  taken := htaken

theorem Traces.congr (h : st.Traces) {st' : TracedNet}
    (hbuffer : st'.net.packetBuffer = st.net.packetBuffer)
    (hentry : st'.entry = st.entry) (hfirst : st'.firstTo = st.firstTo)
    (hstored : st'.stored = st.stored) (htaken : st'.taken = st.taken)
    (hreturns : st'.returns = st.returns) : st'.Traces := by
  apply h.log hbuffer hentry hfirst hstored
  · rw [hreturns]
    exact h.returned
  · rw [htaken, hreturns]
    exact h.taken

theorem DeliversRight.congr (h : st.DeliversRight) {st' : TracedNet}
    (hreturns : st'.returns = st.returns) : st'.DeliversRight := by
  constructor
  · rw [hreturns]
    exact h.once
  · rw [hreturns]
    exact h.bound

/-- What a `recvfrom` returns is the first packet for the port it reads. -/
theorem returning_eq (h : st.Traces) (s : Nat) (flags : BitVec 32) :
    st.returning s flags =
      if st.net.isUdp s = true then
        match st.firstTo (st.net.readPort s) with
        | none => st.returns
        | some d => ⟨s, st.born s, d, isPeek flags⟩ :: st.returns
      else st.returns := by
  rw [returning]
  by_cases hs : st.net.isUdp s = true
  · rw [if_pos hs, Net.returnedSlot_eq hs, h.first]
    cases st.net.findPacket (st.net.readPort s) <;> rfl
  · rw [if_neg hs, Net.returnedSlot, if_neg hs]

/-- The packet that stands first for a port has been returned to a call without
`MSG_PEEK` if and only if the port is marked as read. -/
theorem Traces.taken_iff (h : st.Traces) {p : UInt16} {d : Arrival}
    (hd : st.firstTo p = some d) : st.taken p = true ↔
      ∃ r ∈ st.returns, r.peek = false ∧ r.datagram.number = d.number := by
  rw [h.taken p]
  constructor
  · rintro ⟨r, hr, hpeek, rfl⟩
    have hsame := (h.returned r hr).symm.trans hd
    exact ⟨r, hr, hpeek, by rw [Option.some.inj hsame]⟩
  · rintro ⟨r, hr, hpeek, hnumber⟩
    exact ⟨r, hr, hpeek, h.apart _ _ _ _ (h.returned r hr) hd hnumber⟩

theorem recvfrom_step {s len : Nat} {flags : BitVec 32} (h : st.Traces)
    (hgood : st.DeliversRight) :
    (st.step (.recvfrom s len flags)).Traces ∧
      ((st.step (.recvfrom s len flags)).DeliversRight ↔
        st.ReadsOnce (.recvfrom s len flags)) := by
  have hbuffer : (st.step (.recvfrom s len flags)).net.packetBuffer =
      st.net.packetBuffer := Net.run_packetBuffer (fun _ _ _ _ heq => by cases heq)
  have hreturns : (st.step (.recvfrom s len flags)).returns = _ :=
    returning_eq h s flags
  have htaken : (st.step (.recvfrom s len flags)).taken = st.takenBy s flags := rfl
  rw [takenBy] at htaken
  rw [ReadsOnce]
  by_cases hs : st.net.isUdp s = true
  swap
  · rw [if_neg hs] at hreturns
    rw [if_neg (fun hc => hs hc.1)] at htaken
    exact ⟨h.congr hbuffer rfl rfl rfl htaken hreturns,
      iff_of_true (hgood.congr hreturns) fun hc => absurd hc hs⟩
  rw [if_pos hs] at hreturns
  cases hd : st.firstTo (st.net.readPort s) with
  | none =>
      rw [hd] at hreturns
      rw [if_neg (fun hc => hc.2.2 hd)] at htaken
      exact ⟨h.congr hbuffer rfl rfl rfl htaken hreturns,
        iff_of_true (hgood.congr hreturns) fun _ d hc => by cases hc⟩
  | some d =>
      rw [hd] at hreturns
      dsimp only at hreturns
      obtain ⟨hport, -⟩ := h.port _ d hd
      constructor
      · apply h.log hbuffer rfl rfl rfl
        · rw [hreturns]
          intro r hr
          rcases List.mem_cons.mp hr with rfl | hr
          · rw [hport]
            exact hd
          · exact h.returned r hr
        · intro p
          rw [hreturns, htaken]
          simp only [List.exists_mem_cons_iff]
          rw [← h.taken p, hport]
          cases hpeek : isPeek flags with
          | true => simp
          | false =>
              rw [if_pos ⟨hs, rfl, by rw [hd]; exact Option.some_ne_none d⟩,
                Function.update_apply]
              split
              · rename_i hp
                simp [hp]
              · rename_i hp
                simp [Ne.symm hp]
      · have hrepeated : (∀ r ∈ st.returns, isPeek flags = true ∨ r.peek = true ∨
            d.number ≠ r.datagram.number) ↔
            (isPeek flags = true ∨ st.taken (st.net.readPort s) = false) := by
          rw [← Bool.not_eq_true (st.taken _), h.taken_iff hd]
          constructor
          · intro hall
            by_contra hnot
            rw [not_or, not_not] at hnot
            obtain ⟨hpeek, r, hr, hrpeek, hnumber⟩ := hnot
            rcases hall r hr with hc | hc | hc
            · exact hpeek hc
            · rw [hrpeek] at hc
              cases hc
            · exact hc hnumber.symm
          · rintro (hpeek | hnot) r hr
            · exact Or.inl hpeek
            · cases hrpeek : r.peek with
              | true => exact Or.inr (Or.inl rfl)
              | false => exact Or.inr (Or.inr fun heq =>
                  hnot ⟨r, hr, hrpeek, heq.symm⟩)
        constructor
        · rintro ⟨honce, hbound⟩ - e he
          obtain rfl := Option.some.inj he
          rw [hreturns] at honce hbound
          exact ⟨hrepeated.mp (List.pairwise_cons.mp honce).1,
            hbound _ List.mem_cons_self⟩
        · intro hc
          obtain ⟨honce, hbound⟩ := hc hs d rfl
          constructor
          · rw [hreturns]
            exact List.pairwise_cons.mpr ⟨hrepeated.mpr honce, hgood.once⟩
          · rw [hreturns]
            intro r hr
            rcases List.mem_cons.mp hr with rfl | hr
            · exact hbound
            · exact hgood.bound r hr

/-- The arrival of a packet that fits. -/
theorem udpReceived_step (h : st.Traces) (hfits : len ≤ 1480) :
    (st.step (.udpReceived packet sender dest len)).Traces := by
  cases hslot : st.net.receiveSlot packet sender dest len with
  | none =>
      have hstep : st.step (.udpReceived packet sender dest len) =
          { st with
            toBoundNet :=
              st.toBoundNet.step (.udpReceived packet sender dest len) } := by
        rw [step, hslot]
      rw [hstep]
      refine h.congr ?_ rfl rfl rfl rfl rfl
      show (st.net.udpReceived packet sender dest len).packetBuffer = _
      rw [Net.udpReceived, hslot]
  | some i =>
      have hstep : st.step (.udpReceived packet sender dest len) =
          { st with
            toBoundNet := st.toBoundNet.step (.udpReceived packet sender dest len)
            stored := st.stored + 1
            entry := Function.update st.entry i (st.arriving packet)
            firstTo := st.firstWith (st.arriving packet) } := by
        rw [step, hslot]
      rw [hstep]
      obtain ⟨-, -, hi, hfree, -⟩ := Net.receiveSlot_spec hslot
      have hfirst : ∀ p, st.firstWith (st.arriving packet) p =
          if st.firstTo p = none ∧ UInt16.ofNat (memWord packet 2) = p
          then some (st.arriving packet) else st.firstTo p := by
        intro p
        rw [firstWith]
        split
        · rename_i hnone
          rw [Function.update_apply]
          by_cases hp : p = (st.arriving packet).port
          · rw [if_pos hp, if_pos ⟨hp ▸ hnone, hp.symm⟩]
          · rw [if_neg hp, if_neg fun hc => hp hc.2.symm]
        · rename_i hsome
          rw [if_neg]
          rintro ⟨hnone, rfl⟩
          exact hsome hnone
      have hcases : ∀ p d, st.firstWith (st.arriving packet) p = some d →
          st.firstTo p = some d ∨
            (UInt16.ofNat (memWord packet 2) = p ∧ d = st.arriving packet) := by
        intro p d hd
        rw [hfirst] at hd
        split at hd
        · rename_i hc
          exact Or.inr ⟨hc.2, (Option.some.inj hd).symm⟩
        · exact Or.inl hd
      constructor
      · exact Net.udpReceived_packed hslot hfits h.packed
      · intro p
        have hfound : (st.net.udpReceived packet sender dest len).findPacket p = _ :=
          Net.udpReceived_findPacket hslot hfits h.packed p
        show st.firstWith (st.arriving packet) p =
          ((st.net.udpReceived packet sender dest len).findPacket p).map _
        rw [hfirst, hfound, h.first p]
        cases hp : st.net.findPacket p with
        | none =>
            simp only [Option.map_none, true_and]
            split
            · rw [Option.map_some, Function.update_self]
            · rfl
        | some j =>
            have hne : j ≠ i := by
              rintro rfl
              unfold Net.findPacket at hp
              have hfull := List.find?_some hp
              rw [decide_eq_true_iff] at hfull
              exact hfull.1 hfree
            simp [Function.update_of_ne hne]
      · intro p d hd
        rcases hcases p d hd with hold | ⟨hp, rfl⟩
        · exact ⟨(h.port p d hold).1, Nat.lt_succ_of_lt (h.port p d hold).2⟩
        · exact ⟨hp, Nat.lt_succ_self _⟩
      · intro p q d e hd he hnumber
        rcases hcases p d hd with hold | ⟨hp, rfl⟩ <;>
          rcases hcases q e he with hold' | ⟨hq, rfl⟩
        · exact h.apart p q d e hold hold' hnumber
        · exact absurd hnumber (Nat.ne_of_lt (h.port p d hold).2)
        · exact absurd hnumber.symm (Nat.ne_of_lt (h.port q e hold').2)
        · exact hp.symm.trans hq
      · intro r hr
        have hold := h.returned r hr
        show st.firstWith (st.arriving packet) r.datagram.port = _
        rw [hfirst, if_neg, hold]
        rw [hold]
        rintro ⟨hc, -⟩
        cases hc
      · exact h.taken

/-- One call: the trace stays right, and the deliveries do under the condition. -/
theorem step_iff {op : NetOp} (h : st.Traces) (hgood : st.DeliversRight) (hfits : Fits op) :
    (st.step op).Traces ∧ ((st.step op).DeliversRight ↔ st.ReadsOnce op) := by
  cases op with
  | recvfrom s len flags => exact recvfrom_step h hgood
  | udpReceived packet sender dest len =>
      refine ⟨udpReceived_step h hfits, iff_of_true (hgood.congr ?_) trivial⟩
      rw [step]
      split <;> rfl
  | socket domain type protocol new =>
      have hbuffer := congrArg (fun b => b.net.packetBuffer)
        (st.step_toBoundNet (.socket domain type protocol new))
      have hnet := hbuffer.trans (Net.run_packetBuffer fun _ _ _ _ heq => by cases heq)
      rw [step] at hnet ⊢
      split
      · rename_i hfail
        rw [if_pos hfail] at hnet
        exact ⟨h.congr hnet rfl rfl rfl rfl rfl,
          iff_of_true (hgood.congr rfl) trivial⟩
      · rename_i hfail
        rw [if_neg hfail] at hnet
        exact ⟨h.congr hnet rfl rfl rfl rfl rfl,
          iff_of_true (hgood.congr rfl) trivial⟩
  | bind s addr =>
      exact ⟨h.congr (Net.run_packetBuffer fun _ _ _ _ heq => by cases heq) rfl rfl rfl
        rfl rfl, iff_of_true (hgood.congr rfl) trivial⟩
  | unbind s =>
      exact ⟨h.congr (Net.run_packetBuffer fun _ _ _ _ heq => by cases heq) rfl rfl rfl
        rfl rfl, iff_of_true (hgood.congr rfl) trivial⟩
  | sendto s =>
      exact ⟨h.congr (Net.run_packetBuffer fun _ _ _ _ heq => by cases heq) rfl rfl rfl
        rfl rfl, iff_of_true (hgood.congr rfl) trivial⟩
  | socketClose s =>
      exact ⟨h.congr (Net.run_packetBuffer fun _ _ _ _ heq => by cases heq) rfl rfl rfl
        rfl rfl, iff_of_true (hgood.congr rfl) trivial⟩

end TracedNet

/-! ### Runs -/

def zeroTraced : TracedNet where
  toBoundNet := zeroBound
  stored := 0
  born := fun _ => 0
  entry := fun _ => ⟨0, 0, fun _ => none⟩
  firstTo := fun _ => none
  taken := fun _ => false
  returns := []

theorem zeroNet_lengthAt (j : Nat) : zeroNet.lengthAt j = 0 := by
  simp [Net.lengthAt, memWord, zeroNet]

theorem zeroTraced_traces : zeroTraced.Traces := by
  constructor
  · intro j hj hne
    exact absurd (zeroNet_lengthAt j) hne
  · intro p
    have hnone : zeroNet.findPacket p = none := by
      unfold Net.findPacket
      rw [List.find?_eq_none]
      intro j _
      rw [decide_eq_true_iff]
      exact fun hc => hc.1 (zeroNet_lengthAt j)
    have hmap : (zeroNet.findPacket p).map zeroTraced.entry = none := by
      rw [hnone, Option.map_none]
    exact hmap.symm
  · intro p d hd
    cases hd
  · intro p q d e hd
    cases hd
  · intro r hr
    exact absurd hr List.not_mem_nil
  · intro p
    simp [zeroTraced]

/-- Along a run from the start in which every packet fits its entry, datagrams are
delivered once and to the right socket if and only if every call meets the
condition. -/
theorem delivers_right_iff {ops : List NetOp} (hfits : ∀ op ∈ ops, TracedNet.Fits op) :
    Along TracedNet.step (fun st op => (st.step op).DeliversRight) zeroTraced ops ↔
      Along TracedNet.step TracedNet.ReadsOnce zeroTraced ops := by
  have hgood : zeroTraced.DeliversRight :=
    ⟨List.Pairwise.nil, fun r hr => absurd hr List.not_mem_nil⟩
  exact Along.good_iff TracedNet.Traces TracedNet.DeliversRight
    (fun st op h hgood hfits => TracedNet.step_iff h hgood hfits) zeroTraced_traces
    hgood (Along.of_forall hfits)

/-- A packet of eight bytes from port 9 to port 7, its checksum right between 10.0.0.2
and 10.0.0.1. -/
def smallPacket : Nat → UInt8 := fun a => [0, 9, 0, 7, 0, 8, 0xEB, 0xCB].getD a 0

/-- A socket is bound to port 7, and a packet arrives for it. -/
def arrivedOnce : TracedNet :=
  ((zeroTraced.step (.socket 1 1 1 0)).step
    (.bind 0 (some ⟨1, ⟨0, 0, 0, 0⟩, 7⟩))).step
      (.udpReceived smallPacket ⟨10, 0, 0, 2⟩ ⟨10, 0, 0, 1⟩ 8)

def askedOnce : List NetOp :=
  [.socket 1 1 1 0, .bind 0 (some ⟨1, ⟨0, 0, 0, 0⟩, 7⟩),
    .udpReceived smallPacket ⟨10, 0, 0, 2⟩ ⟨10, 0, 0, 1⟩ 8, .recvfrom 0 64 0#32]

theorem delivers_right_iff_asked :
    (∀ op ∈ askedOnce, TracedNet.Fits op) ∧
      Along TracedNet.step (fun st op => (st.step op).DeliversRight) zeroTraced
        askedOnce := by
  have hfits : ∀ op ∈ askedOnce, TracedNet.Fits op := by
    simp [askedOnce, TracedNet.Fits]
  refine ⟨hfits, (delivers_right_iff hfits).mpr ?_⟩
  rw [askedOnce]
  simp only [Along, TracedNet.ReadsOnce, true_and, and_true]
  intro _ d hd
  have hfirst : (arrivedOnce.firstTo (arrivedOnce.net.readPort 0)).map
      (fun d => (d.bound 0, d.port, d.number)) = some (some 7, 7, 0) := by
    decide +kernel
  have hread : arrivedOnce.taken (arrivedOnce.net.readPort 0) = false ∧
      arrivedOnce.born 0 = 0 := by
    decide +kernel
  unfold arrivedOnce at hfirst hread
  rw [hd, Option.map_some, Option.some.injEq, Prod.mk.injEq, Prod.mk.injEq] at hfirst
  obtain ⟨hbound, hport, hnumber⟩ := hfirst
  refine ⟨Or.inr hread.1, ?_, ?_⟩
  · rw [hport]
    exact hbound
  · rw [hnumber]
    exact Nat.le_of_eq hread.2

/-- The socket asks again, and the packet is still there. -/
def askedTwice : List NetOp := askedOnce ++ [NetOp.recvfrom 0 64 0#32]

theorem askedTwice_repeats :
    (∀ op ∈ askedTwice, TracedNet.Fits op) ∧
      ¬Along TracedNet.step (fun st op => (st.step op).DeliversRight) zeroTraced
        askedTwice := by
  refine ⟨by simp [askedTwice, askedOnce, TracedNet.Fits], ?_⟩
  rintro ⟨-, -, -, -, hlast, -⟩
  have hreturns : (askedTwice.foldl TracedNet.step zeroTraced).returns.map
      (fun r => (r.datagram.number, r.peek)) = [(0, false), (0, false)] := by
    decide +kernel
  have honce : (askedTwice.foldl TracedNet.step zeroTraced).returns.Pairwise fun r r' =>
      r.peek = true ∨ r'.peek = true ∨ r.datagram.number ≠ r'.datagram.number :=
    hlast.once
  have hpairs := (List.pairwise_map (f := fun r : Return => (r.datagram.number, r.peek))
    (R := fun r r' => r.2 = true ∨ r'.2 = true ∨ r.1 ≠ r'.1)).mpr honce
  rw [hreturns] at hpairs
  exact absurd hpairs (by simp)

end GlitchedOS
