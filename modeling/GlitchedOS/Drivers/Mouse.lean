/-
The PS/2 mouse.  The interrupt handler assembles packets of four bytes and writes each to
a pipe without waiting; readers of the device take four bytes at a time and rely on
getting one packet.
-/
import GlitchedOS.Lib.Run
import GlitchedOS.Process.PipeBuffer

namespace GlitchedOS

structure Mouse where
  packet : Nat → UInt8
  packetIndex : Nat
  supportsIntellimouse : Bool
  mousePipe : PipeBuffer

namespace Mouse

/-- The driver after `ps2_mouse_init`. -/
def init (supportsIntellimouse : Bool) : Mouse :=
  ⟨fun _ => 0, 0, supportsIntellimouse, .create⟩

/-- The four bytes of `packet`. -/
def packetBytes (m : Mouse) : List UInt8 := copyOut m.packet 0 4

/-- `packet[packet_index++] = byte`. -/
def push (m : Mouse) (byte : UInt8) : Mouse :=
  { m with
    packet := Function.update m.packet m.packetIndex byte
    packetIndex := m.packetIndex + 1 }

/-- The end of a packet: without readers the pipe is emptied, else the packet is
written without waiting. -/
def deliver (m : Mouse) : Mouse :=
  if m.mousePipe.readerCount = 0 then
    { m with
      mousePipe := { m.mousePipe with readHead := m.mousePipe.writeHead }
      packetIndex := 0 }
  else
    { m with mousePipe := (pipeWrite m.mousePipe m.packetBytes).2, packetIndex := 0 }

end Mouse

def ps2MouseHandler (m : Mouse) (byte : UInt8) : Mouse :=
  let m := m.push byte
  let m := if !m.supportsIntellimouse && m.packetIndex == 3 then m.push 0 else m
  if m.packetIndex = 4 then m.deliver else m

/-- `mousedev_read`: the result, the bytes and the driver left. -/
def mousedevRead (m : Mouse) (count : Nat) : Int × List UInt8 × Mouse :=
  let (ret, bytes, pipe) := pipeRead m.mousePipe count
  (ret, bytes, { m with mousePipe := pipe })

inductive MouseEvent where
  | byte (byte : UInt8)
  | read

/-- The driver with the packets assembled so far and the reads that returned bytes. -/
structure MouseTrace where
  mouse : Mouse
  assembled : List (List UInt8)
  returned : List (List UInt8)

namespace MouseTrace

def start (supportsIntellimouse : Bool) : MouseTrace :=
  ⟨.init supportsIntellimouse, [], []⟩

/-- One event.  The handler leaves index 0 exactly when it has completed a packet, which
is then still in `packet`. -/
def step (s : MouseTrace) : MouseEvent → MouseTrace
  | .byte byte =>
      let mouse := ps2MouseHandler s.mouse byte
      { s with
        mouse := mouse
        assembled :=
          if mouse.packetIndex = 0 then s.assembled ++ [mouse.packetBytes] else s.assembled }
  | .read =>
      let (_, bytes, mouse) := mousedevRead s.mouse 4
      { s with
        mouse := mouse
        returned := if bytes = [] then s.returned else s.returned ++ [bytes] }

/-- Every read has returned one assembled packet, each packet at most once and in the
order of assembly, and the pipe holds whole packets that were assembled later. -/
def InStep (s : MouseTrace) : Prop :=
  ∃ queued : List (List UInt8),
    s.mouse.mousePipe.contents = queued.flatten ∧
      (s.returned ++ queued).Sublist s.assembled

def Completes (m : Mouse) : Prop :=
  m.packetIndex = 3 ∨ m.supportsIntellimouse = false ∧ m.packetIndex = 2

instance (m : Mouse) : Decidable (Completes m) := by
  unfold Completes
  infer_instance

/-- No packet is completed while exactly three bytes fit in the pipe. -/
def RoomForWhole (s : MouseTrace) : MouseEvent → Prop
  | .byte _ => Completes s.mouse → s.mouse.mousePipe.available ≠ 3
  | .read => True

end MouseTrace

namespace Mouse

variable {m : Mouse}

/-- A packet goes to the pipe whole or in part; the packet array stays. -/
theorem deliver_eq (hreader : m.mousePipe.readerCount ≠ 0) :
    m.deliver = { m with
      mousePipe := (pipeWrite m.mousePipe m.packetBytes).2, packetIndex := 0 } := by
  rw [deliver, if_neg hreader]

/-- What one byte does: it is stored, or it ends a packet, which goes to the pipe. -/
theorem handler_cases (hreader : m.mousePipe.readerCount ≠ 0) (byte : UInt8) :
    (¬ MouseTrace.Completes m ∧ ps2MouseHandler m byte = m.push byte) ∨
      (MouseTrace.Completes m ∧ ∃ packet,
        ps2MouseHandler m byte = { m with
          packet := packet, packetIndex := 0,
          mousePipe := (pipeWrite m.mousePipe (copyOut packet 0 4)).2 }) := by
  cases hmodel : m.supportsIntellimouse with
  | true =>
      by_cases hlast : m.packetIndex = 3
      · right
        refine ⟨.inl hlast, Function.update m.packet 3 byte, ?_⟩
        simp [ps2MouseHandler, push, hmodel, hlast, deliver_eq, hreader, packetBytes]
      · left
        constructor
        · simp [MouseTrace.Completes, hmodel, hlast]
        · simp [ps2MouseHandler, push, hmodel, hlast]
  | false =>
      by_cases hlast : m.packetIndex = 3
      · right
        refine ⟨.inl hlast, Function.update m.packet 3 byte, ?_⟩
        simp [ps2MouseHandler, push, hmodel, hlast, deliver_eq, hreader, packetBytes]
      · by_cases hpad : m.packetIndex = 2
        · right
          refine ⟨.inr ⟨hmodel, hpad⟩,
            Function.update (Function.update m.packet 2 byte) 3 0, ?_⟩
          simp [ps2MouseHandler, push, hmodel, hpad, deliver_eq, hreader, packetBytes]
        · left
          constructor
          · simp [MouseTrace.Completes, hlast, hpad]
          · simp [ps2MouseHandler, push, hmodel, hlast, hpad]

end Mouse

namespace MouseTrace

/-- The driver between two events: the pipe is sound, a packet is being assembled, and
everything read and queued is whole packets in order. -/
structure Ready (s : MouseTrace) : Prop where
  valid : s.mouse.mousePipe.Valid
  index : s.mouse.packetIndex < 4
  length : ∀ packet ∈ s.assembled, packet.length = 4
  inStep : s.InStep

theorem contents_create : PipeBuffer.create.contents = [] := by
  apply List.length_eq_zero_iff.mp
  rw [PipeBuffer.contents_length]
  decide

theorem start_ready (supportsIntellimouse : Bool) : (start supportsIntellimouse).Ready where
  valid := PipeTrace.start_queued.valid
  index := Nat.zero_lt_succ 3
  length := by simp [start]
  inStep := ⟨[], contents_create, .refl []⟩

variable {s : MouseTrace}

theorem Ready.push (h : s.Ready) (byte : UInt8) (hmore : ¬ Completes s.mouse) :
    Ready { s with mouse := s.mouse.push byte } where
  valid := h.valid
  index := by
    have hindex := h.index
    have hlast : s.mouse.packetIndex ≠ 3 := fun hlast => hmore (.inl hlast)
    simp only [Mouse.push]
    omega
  length := h.length
  inStep := h.inStep

theorem Ready.stored_mod (h : s.Ready) : s.mouse.mousePipe.stored % 4 = 0 := by
  obtain ⟨queued, hcontents, hsublist⟩ := h.inStep
  have hlength : ∀ packet ∈ queued, packet.length = 4 := by
    intro packet hpacket
    exact h.length packet (hsublist.subset (List.mem_append_right _ hpacket))
  have hsum : queued.flatten.length = queued.length * 4 := by
    rw [List.length_flatten, List.map_congr_left hlength]
    simp
  rw [← PipeBuffer.contents_length, hcontents, hsum]
  exact Nat.mul_mod_left _ _

/-- A packet completed when not exactly three bytes fit is queued whole or dropped. -/
theorem Ready.deliver (h : s.Ready) (packet : Nat → UInt8)
    (hroom : s.mouse.mousePipe.available ≠ 3) :
    Ready { s with
      mouse := { s.mouse with
        packet := packet, packetIndex := 0
        mousePipe := (pipeWrite s.mouse.mousePipe (copyOut packet 0 4)).2 }
      assembled := s.assembled ++ [copyOut packet 0 4] } := by
  have hlength : (copyOut packet 0 4).length = 4 := by simp [copyOut]
  have hne : copyOut packet 0 4 ≠ [] := by simp [copyOut]
  have hassembled : ∀ bytes ∈ s.assembled ++ [copyOut packet 0 4], bytes.length = 4 := by
    intro bytes hbytes
    rcases List.mem_append.mp hbytes with hold | hnew
    · exact h.length bytes hold
    · rw [List.mem_singleton.mp hnew, hlength]
  obtain ⟨queued, hcontents, hsublist⟩ := h.inStep
  by_cases hfull : s.mouse.mousePipe.available = 0
  · rw [pipeWrite_full h.valid hne hfull]
    exact ⟨h.valid, Nat.zero_lt_succ 3, hassembled, queued, hcontents,
      hsublist.trans (List.sublist_append_left _ _)⟩
  · have havailable := PipeBuffer.available_eq h.valid
    have hwhole : min (copyOut packet 0 4).length s.mouse.mousePipe.available = 4 := by
      have hmod := h.stored_mod
      rw [hlength]
      simp only [pipeSize] at havailable
      omega
    rw [pipeWrite_spec h.valid hne hfull, hwhole]
    obtain ⟨hvalid, -, hnew⟩ := PipeBuffer.writeChunk_spec h.valid (copyOut packet 0 4) 4
      (by omega) (Nat.le_of_eq hlength.symm)
    refine ⟨hvalid, Nat.zero_lt_succ 3, hassembled, queued ++ [copyOut packet 0 4], ?_, ?_⟩
    · rw [hnew, hcontents, List.take_of_length_le (Nat.le_of_eq hlength)]
      simp
    · rw [← List.append_assoc]
      exact hsublist.append_right _

theorem step_read (hvalid : s.mouse.mousePipe.Valid) (hlong : 4 ≤ s.mouse.mousePipe.stored) :
    s.step .read = { s with
      mouse := { s.mouse with mousePipe := s.mouse.mousePipe.advance 4 }
      returned := s.returned ++ [s.mouse.mousePipe.contents.take 4] } := by
  have hsome : s.mouse.mousePipe.stored ≠ 0 := by omega
  have hne : s.mouse.mousePipe.contents.take 4 ≠ [] := by
    intro hnil
    have hlength := congrArg List.length hnil
    rw [List.length_take, PipeBuffer.contents_length, Nat.min_eq_left hlong] at hlength
    contradiction
  simp only [step, mousedevRead, pipeRead_spec hvalid hsome, if_neg hne,
    Nat.min_eq_left hlong]

theorem Ready.read (h : s.Ready) : (s.step .read).Ready := by
  obtain ⟨queued, hcontents, hsublist⟩ := h.inStep
  cases queued with
  | nil =>
      have hempty : s.mouse.mousePipe.stored = 0 := by
        rw [← PipeBuffer.contents_length, hcontents]
        rfl
      have hsame : s.step .read = s := by
        simp [step, mousedevRead, pipeRead_empty h.valid hempty]
      rw [hsame]
      exact h
  | cons packet rest =>
      have hfour : packet.length = 4 := by
        apply h.length
        apply hsublist.subset
        simp
      have hlong : 4 ≤ s.mouse.mousePipe.stored := by
        rw [← PipeBuffer.contents_length, hcontents, List.flatten_cons, List.length_append,
          hfour]
        exact Nat.le_add_right _ _
      have htake : s.mouse.mousePipe.contents.take 4 = packet := by
        rw [hcontents, List.flatten_cons, List.take_left' hfour]
      obtain ⟨hvalid, hdrop⟩ := PipeBuffer.advance_spec h.valid hlong
      rw [step_read h.valid hlong, htake]
      refine ⟨hvalid, h.index, h.length, rest, ?_, ?_⟩
      · rw [hdrop, hcontents, List.flatten_cons, List.drop_left' hfour]
      · simpa using hsublist

/-- One event keeps the driver ready when no packet meets three free bytes. -/
theorem Ready.step (h : s.Ready) (event : MouseEvent) (hroom : s.RoomForWhole event) :
    (s.step event).Ready := by
  cases event with
  | read => exact h.read
  | byte byte =>
      rcases Mouse.handler_cases h.valid.reader byte with
        ⟨hmore, hpush⟩ | ⟨hlast, packet, hdeliver⟩
      · have hstep : s.step (.byte byte) = { s with mouse := s.mouse.push byte } := by
          simp [MouseTrace.step, hpush, Mouse.push]
        rw [hstep]
        exact h.push byte hmore
      · have hstep := h.deliver packet (hroom hlast)
        simpa [MouseTrace.step, hdeliver, Mouse.packetBytes] using hstep

end MouseTrace

/-- The mouse stream stays in step through every run in which no packet is completed
while exactly three bytes fit in the pipe. -/
theorem mouse_stays_in_step (supportsIntellimouse : Bool) (events : List MouseEvent)
    (hroom : Along MouseTrace.step MouseTrace.RoomForWhole
      (.start supportsIntellimouse) events) :
    Along MouseTrace.step (fun s event => (s.step event).InStep)
      (.start supportsIntellimouse) events := by
  have hready := Along.invariant MouseTrace.Ready
    (fun s event hs hevent => hs.step event hevent)
    (MouseTrace.start_ready supportsIntellimouse) hroom
  exact hready.mono fun s event hs => hs.inStep

/-- One packet, read back. -/
theorem mouse_stays_in_step_one :
    Along MouseTrace.step (fun s event => (s.step event).InStep) (.start true)
      [.byte 8, .byte 1, .byte 2, .byte 0, .read] := by
  apply mouse_stays_in_step
  refine ⟨?first, ?second, ?third, ?fourth, trivial, trivial⟩
  case first => exact fun hlast => absurd hlast (by decide)
  case second => exact fun hlast => absurd hlast (by decide)
  case third => exact fun hlast => absurd hlast (by decide)
  case fourth => exact fun _ => by decide

/-! ### Three free bytes

A pipe of 8183 bytes holds 2045 packets and three bytes more. -/

namespace MouseTrace

/-- The driver between two packets, with what it holds. -/
structure Holds (s : MouseTrace) (contents : List UInt8)
    (assembled returned : List (List UInt8)) : Prop where
  valid : s.mouse.mousePipe.Valid
  index : s.mouse.packetIndex = 0
  model : s.mouse.supportsIntellimouse = true
  contents : s.mouse.mousePipe.contents = contents
  assembled : s.assembled = assembled
  returned : s.returned = returned

def packetEvents (a b c d : UInt8) : List MouseEvent := [.byte a, .byte b, .byte c, .byte d]

variable {s : MouseTrace} {contents : List UInt8} {assembled returned : List (List UInt8)}

/-- Four bytes write their packet to the pipe, as far as it fits. -/
theorem Holds.packet (h : s.Holds contents assembled returned) {a b c d : UInt8}
    (hroom : contents.length + 1 < pipeSize) :
    ((packetEvents a b c d).foldl step s).Holds
      (contents ++ [a, b, c, d].take (pipeSize - 1 - contents.length))
      (assembled ++ [[a, b, c, d]]) returned := by
  have hfold : (packetEvents a b c d).foldl step s =
      { s with
        mouse := { s.mouse with
          packet := Function.update (Function.update (Function.update (Function.update
            s.mouse.packet 0 a) 1 b) 2 c) 3 d
          packetIndex := 0
          mousePipe := (pipeWrite s.mouse.mousePipe [a, b, c, d]).2 }
        assembled := s.assembled ++ [[a, b, c, d]] } := by
    simp [packetEvents, step, ps2MouseHandler, Mouse.push, Mouse.deliver, h.index, h.model,
      h.valid.reader, Mouse.packetBytes, copyOut, List.range_succ]
  have hstored : s.mouse.mousePipe.stored = contents.length := by
    rw [← PipeBuffer.contents_length, h.contents]
  have havailable := PipeBuffer.available_eq h.valid
  have hsome : s.mouse.mousePipe.available ≠ 0 := by omega
  obtain ⟨hvalid, -, hcontents⟩ := PipeBuffer.writeChunk_spec h.valid [a, b, c, d]
    (min 4 s.mouse.mousePipe.available) (by omega) (Nat.min_le_left _ _)
  rw [hfold, pipeWrite_spec h.valid (List.cons_ne_nil _ _) hsome]
  refine ⟨hvalid, rfl, h.model, ?_, congrArg (· ++ [[a, b, c, d]]) h.assembled, h.returned⟩
  refine hcontents.trans ?_
  rw [h.contents, havailable, hstored, Nat.min_comm, ← List.take_take]
  exact congrArg (contents ++ List.take _ ·) (List.take_of_length_le (Nat.le_refl 4))

theorem Holds.read (packet rest : List UInt8)
    (h : s.Holds (packet ++ rest) assembled returned) (hfour : packet.length = 4) :
    (s.step .read).Holds rest assembled (returned ++ [packet]) := by
  have hlong : 4 ≤ s.mouse.mousePipe.stored := by
    rw [← PipeBuffer.contents_length, h.contents, List.length_append, hfour]
    exact Nat.le_add_right _ _
  have htake : s.mouse.mousePipe.contents.take 4 = packet := by
    rw [h.contents, List.take_left' hfour]
  obtain ⟨hvalid, hdrop⟩ := PipeBuffer.advance_spec h.valid hlong
  rw [step_read h.valid hlong]
  refine ⟨hvalid, h.index, h.model, ?_, h.assembled, ?_⟩
  · refine hdrop.trans ?_
    rw [h.contents, List.drop_left' hfour]
  · simp only [h.returned, htake]

def still : List UInt8 := [8, 0, 0, 0]

theorem start_holds : (start true).Holds [] [] [] :=
  ⟨PipeTrace.start_queued.valid, rfl, rfl, contents_create, rfl, rfl⟩

theorem flatten_still_length (n : Nat) : (List.replicate n still).flatten.length = n * 4 := by
  simp [still]

/-- Up to 2045 packets fit. -/
theorem fill_holds (n : Nat) (hn : n ≤ 2045) :
    (((List.replicate n (packetEvents 8 0 0 0)).flatten).foldl step (start true)).Holds
      (List.replicate n still).flatten (List.replicate n still) [] := by
  induction n with
  | zero => exact start_holds
  | succ n ih =>
      have hlength := flatten_still_length n
      have hnext := (ih (by omega)).packet (a := 8) (b := 0) (c := 0) (d := 0)
        (by simp only [hlength, pipeSize]; omega)
      have hwhole : [8, 0, 0, 0].take (pipeSize - 1 - (List.replicate n still).flatten.length) =
          still := by
        apply List.take_of_length_le
        simp only [hlength, pipeSize, List.length_cons, List.length_nil]
        omega
      rw [hwhole] at hnext
      simpa [List.replicate_succ', List.flatten_append, still] using hnext

theorem drain_holds (n : Nat) {rest : List UInt8}
    (h : s.Holds ((List.replicate n still).flatten ++ rest) assembled returned) :
    ((List.replicate n MouseEvent.read).foldl step s).Holds rest assembled
      (returned ++ List.replicate n still) := by
  induction n generalizing s returned with
  | zero => simpa using h
  | succ n ih =>
      rw [List.replicate_succ, List.flatten_cons, List.append_assoc] at h
      have hrest := ih (h.read _ _ rfl)
      simpa [List.replicate_succ] using hrest

/-- `n + 1` packets are left unread, one more is written, and after a read another. -/
def overrun (n : Nat) : List MouseEvent :=
  (List.replicate (n + 1) (packetEvents 8 0 0 0)).flatten ++ packetEvents 8 1 2 3 ++
    [.read] ++ packetEvents 9 0 0 0 ++ List.replicate n .read ++ [.read]

/-- With 2045 packets unread the next one is written in part, and after a read makes
room a later packet follows the part. -/
theorem overrun_holds {n : Nat} (hn : n = 2044) :
    ((overrun n).foldl step (start true)).Holds [0, 0, 0]
      (List.replicate (n + 1) still ++ [[8, 1, 2, 3]] ++ [[9, 0, 0, 0]])
      ([still] ++ List.replicate n still ++ [[8, 1, 2, 9]]) := by
  have hlength := flatten_still_length
  have hfull := (fill_holds (n + 1) (by omega)).packet (a := 8) (b := 1) (c := 2) (d := 3)
    (by simp only [hlength, pipeSize]; omega)
  have hpart : pipeSize - 1 - (List.replicate (n + 1) still).flatten.length = 3 := by
    simp only [hlength, pipeSize]
    omega
  rw [hpart, show ([8, 1, 2, 3] : List UInt8).take 3 = [8, 1, 2] from rfl,
    List.replicate_succ (a := still), List.flatten_cons, List.append_assoc] at hfull
  have hwhole : pipeSize - 1 -
      ((List.replicate n still).flatten ++ ([8, 1, 2] : List UInt8)).length = 4 := by
    simp only [List.length_append, hlength, pipeSize, List.length_cons, List.length_nil]
    omega
  have hroom := (hfull.read _ _ rfl).packet (a := 9) (b := 0) (c := 0) (d := 0) (by
    simp only [List.length_append, hlength, pipeSize, List.length_cons, List.length_nil]
    omega)
  rw [hwhole, show ([9, 0, 0, 0] : List UInt8).take 4 = [9, 0, 0, 0] from rfl,
    List.append_assoc] at hroom
  have hlast := (drain_holds n hroom).read [8, 1, 2, 9] [0, 0, 0] rfl
  simpa [overrun, List.foldl_append, List.replicate_succ (a := still)] using hlast

/-- A read has mixed two packets. -/
theorem Holds.out_of_step {n : Nat} {first : List (List UInt8)}
    (h : s.Holds contents (List.replicate n still ++ [[8, 1, 2, 3]] ++ [[9, 0, 0, 0]])
      (first ++ [[8, 1, 2, 9]])) :
    [8, 1, 2, 9] ∈ s.returned ∧ [8, 1, 2, 9] ∉ s.assembled ∧ ¬ s.InStep := by
  have hreturned : [8, 1, 2, 9] ∈ s.returned := by simp [h.returned]
  have hassembled : [8, 1, 2, 9] ∉ s.assembled := by simp [h.assembled, still]
  refine ⟨hreturned, hassembled, ?_⟩
  rintro ⟨queued, -, hsublist⟩
  exact hassembled (hsublist.subset (List.mem_append_left _ hreturned))

end MouseTrace

/-- The last read of the run returns bytes of two packets, which no packet has. -/
theorem mouse_overrun_out_of_step :
    let s := (MouseTrace.overrun 2044).foldl MouseTrace.step (.start true)
    [8, 1, 2, 9] ∈ s.returned ∧ [8, 1, 2, 9] ∉ s.assembled ∧ ¬ s.InStep :=
  (MouseTrace.overrun_holds rfl).out_of_step

end GlitchedOS
