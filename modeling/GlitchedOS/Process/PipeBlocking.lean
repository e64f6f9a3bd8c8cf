/-
`pipe_write` with its waits.  A writer that finds the pipe full may yield, and then
readers take bytes, leave, and signals arrive; its loop goes on from what they left.
When it is interrupted it answers `EINTR`, also when a part of the bytes is stored.
-/
import GlitchedOS.Process.PipeBuffer
import GlitchedOS.Lib.Run

namespace GlitchedOS

/-- Where a call is: in its loop, in `yield_current`, or back with a result. -/
inductive CallStatus where
  | looping
  | yielding
  | returned (res : Int)
deriving Repr, DecidableEq

/-- A call of `pipe_write` on its way, with what readers took since it began; `pending` is
what `has_pending_signals` answers. -/
structure PipeWriter where
  pipe : PipeBuffer
  src : List UInt8
  written : Nat
  pending : Bool
  taken : List UInt8
  status : CallStatus

/-- What other tasks do while a writer yields: reads of these lengths, and how many readers
they leave, and whether there is a signal then. -/
structure OtherTasks where
  reads : List Nat
  readerCount : Nat
  pending : Bool

/-- Reads one after another: the bytes taken and the pipe left. -/
def takeReads (p : PipeBuffer) : List Nat → List UInt8 × PipeBuffer
  | [] => ([], p)
  | len :: rest =>
    let more := takeReads (pipeRead p len).2.2 rest
    ((pipeRead p len).2.1 ++ more.1, more.2)

namespace PipeWriter

/-- The tests in front of the loop of `pipe_write`. -/
def start (p : PipeBuffer) (src : List UInt8) (pending : Bool) : PipeWriter where
  pipe := p
  src := src
  written := 0
  pending := pending
  taken := []
  status :=
    if src.length = 0 then .returned 0
    else if p.readerCount = 0 then .returned ePipe
    else .looping

/-- `written ? written : -E` -/
def writtenOr (w : PipeWriter) (error : Int) : Int :=
  if w.written ≠ 0 then w.written else error

/-- The number of bytes that the next round stores. -/
def chunk (w : PipeWriter) : Nat :=
  if w.pipe.available < w.src.length - w.written then w.pipe.available
  else w.src.length - w.written

/-- One round of the loop of `pipe_write`. -/
def round (blocking : Bool) (w : PipeWriter) : PipeWriter :=
  if w.src.length ≤ w.written then { w with status := .returned w.written }
  else if w.pipe.readerCount = 0 then { w with status := .returned (w.writtenOr ePipe) }
  else if w.pipe.available = 0 then
    if !blocking then { w with status := .returned (w.writtenOr eAgain) }
    else if w.pending then { w with status := .returned eIntr }
    else { w with status := .yielding }
  else
    { w with
      pipe := writeChunk w.pipe (w.src.drop w.written) w.chunk
      written := w.written + w.chunk }

/-- The writer comes back from `yield_current`. -/
def resume (w : PipeWriter) (others : OtherTasks) : PipeWriter :=
  { w with
    pipe := { (takeReads w.pipe others.reads).2 with readerCount := others.readerCount }
    pending := others.pending
    taken := w.taken ++ (takeReads w.pipe others.reads).1
    status := .looping }

end PipeWriter

/-- A round, or what others do while the writer yields. -/
inductive WriterStep (blocking : Bool) : PipeWriter → Option OtherTasks → PipeWriter → Prop
  | round {w : PipeWriter} (hstatus : w.status = .looping) :
      WriterStep blocking w none (w.round blocking)
  | resume {w : PipeWriter} (hstatus : w.status = .yielding) (others : OtherTasks) :
      WriterStep blocking w (some others) (w.resume others)

namespace PipeBuffer

/-- The heads stay inside the buffer. -/
structure Heads (p : PipeBuffer) : Prop where
  read : p.readHead < pipeSize
  write : p.writeHead < pipeSize

def opened (p : PipeBuffer) : PipeBuffer :=
  { p with readerCount := 1, writerCount := 1 }

theorem Heads.opened {p : PipeBuffer} (h : p.Heads) : p.opened.Valid :=
  ⟨h.read, h.write, Nat.one_ne_zero, Nat.one_ne_zero⟩

theorem Heads.available_eq {p : PipeBuffer} (h : p.Heads) :
    p.available = pipeSize - 1 - p.stored :=
  have hopened : p.opened.available = pipeSize - 1 - p.opened.stored :=
    PipeBuffer.available_eq h.opened
  hopened

theorem pipeRead_opened (p : PipeBuffer) (len : Nat) :
    (pipeRead p len).2.1 = (pipeRead p.opened len).2.1 ∧
      (pipeRead p len).2.2.opened = (pipeRead p.opened len).2.2 := by
  by_cases hle : p.readHead ≤ p.writeHead
  · have hleOpened : p.opened.readHead ≤ p.opened.writeHead := hle
    by_cases heq : p.writeHead = p.readHead
    · have heqOpened : p.opened.writeHead = p.opened.readHead := heq
      rw [pipeRead, if_pos hle, if_pos heq, pipeRead, if_pos hleOpened, if_pos heqOpened]
      split <;> exact ⟨rfl, rfl⟩
    · have hneOpened : ¬ p.opened.writeHead = p.opened.readHead := heq
      rw [pipeRead, if_pos hle, if_neg heq, pipeRead, if_pos hleOpened, if_neg hneOpened]
      exact ⟨rfl, rfl⟩
  · have hltOpened : ¬ p.opened.readHead ≤ p.opened.writeHead := hle
    rw [pipeRead, if_neg hle, pipeRead, if_neg hltOpened]
    extract_lets maxBytes n first bytes readHead maxBytes' n' first' bytes' readHead'
    by_cases hone : first = n
    · have honeOpened : first' = n' := hone
      rw [if_pos hone, if_pos honeOpened]
      exact ⟨rfl, rfl⟩
    · have htwoOpened : ¬ first' = n' := hone
      rw [if_neg hone, if_neg htwoOpened]
      exact ⟨rfl, rfl⟩

/-- A read takes the oldest bytes, and leaves the others. -/
theorem Heads.pipeRead {p : PipeBuffer} (h : p.Heads) (len : Nat) :
    (pipeRead p len).2.2.Heads ∧
      (GlitchedOS.pipeRead p len).2.1 ++ (GlitchedOS.pipeRead p len).2.2.contents = p.contents := by
  obtain ⟨hbytes, hpipe⟩ := pipeRead_opened p len
  suffices hopened : (GlitchedOS.pipeRead p len).2.2.opened.Valid ∧
      (GlitchedOS.pipeRead p len).2.1 ++ (GlitchedOS.pipeRead p len).2.2.opened.contents =
        p.contents from ⟨⟨hopened.1.readHead, hopened.1.writeHead⟩, hopened.2⟩
  rw [hbytes, hpipe]
  by_cases hempty : p.stored = 0
  · rw [pipeRead_empty h.opened hempty]
    exact ⟨h.opened, rfl⟩
  · rw [pipeRead_spec h.opened hempty]
    obtain ⟨hvalid, hcontents⟩ := PipeBuffer.advance_spec h.opened
      (Nat.min_le_right len p.opened.stored)
    refine ⟨hvalid, ?_⟩
    have htake : p.contents.take len = p.contents.take (min len p.stored) := by
      rw [List.take_eq_take_iff, contents_length]
      omega
    change p.contents.take len ++ (p.opened.advance (min len p.opened.stored)).contents = _
    rw [htake, hcontents]
    exact List.take_append_drop _ _

theorem Heads.takeReads {p : PipeBuffer} (h : p.Heads) (reads : List Nat) :
    (takeReads p reads).2.Heads ∧
      (GlitchedOS.takeReads p reads).1 ++ (GlitchedOS.takeReads p reads).2.contents =
        p.contents := by
  induction reads generalizing p with
  | nil => exact ⟨h, rfl⟩
  | cons len rest ih =>
      obtain ⟨hheads, hsplit⟩ := h.pipeRead len
      obtain ⟨hrest, hmore⟩ := ih hheads
      refine ⟨hrest, ?_⟩
      rw [GlitchedOS.takeReads, List.append_assoc, hmore, hsplit]

theorem Heads.writeChunk {p : PipeBuffer} (h : p.Heads) {src : List UInt8} {chunk : Nat}
    (hroom : chunk ≤ p.available) (hlen : chunk ≤ src.length) :
    (writeChunk p src chunk).Heads ∧
      (GlitchedOS.writeChunk p src chunk).contents = p.contents ++ src.take chunk := by
  have hstored := p.stored_lt
  rw [h.available_eq] at hroom
  obtain ⟨hvalid, -, hcontents⟩ := writeChunk_spec h.opened src chunk
    (show p.stored + chunk < pipeSize by omega) hlen
  exact ⟨⟨hvalid.readHead, hvalid.writeHead⟩, hcontents⟩

end PipeBuffer

namespace PipeWriter

/-- What readers took and what the pipe holds is what it held, and behind it the bytes
that the writer counts. -/
structure Stored (p : PipeBuffer) (src : List UInt8) (w : PipeWriter) : Prop where
  heads : w.pipe.Heads
  source : w.src = src
  written_le : w.written ≤ src.length
  bytes : w.taken ++ w.pipe.contents = p.contents ++ src.take w.written

/-- A result that is not negative is the number of bytes from the start of the buffer that
were appended, and with a negative one no byte was. -/
def Reports (p : PipeBuffer) (src : List UInt8) (w : PipeWriter) : Prop :=
  ∀ res, w.status = .returned res →
    (0 ≤ res → res.toNat ≤ src.length ∧
      w.taken ++ w.pipe.contents = p.contents ++ src.take res.toNat) ∧
    (res < 0 → w.taken ++ w.pipe.contents = p.contents)

/-- A signal meets the writer at a full pipe, when a part of the bytes is stored. -/
def Interrupted (blocking : Bool) (w : PipeWriter) : Prop :=
  w.status = .looping ∧ blocking = true ∧ w.pending = true ∧ w.pipe.readerCount ≠ 0 ∧
    w.pipe.available = 0 ∧ w.written ≠ 0 ∧ w.written < w.src.length

variable {p : PipeBuffer} {src : List UInt8} {w w' : PipeWriter} {blocking : Bool}

theorem start_stored (hp : p.Heads) (src : List UInt8) (pending : Bool) :
    Stored p src (start p src pending) :=
  ⟨hp, rfl, Nat.zero_le _, by simp [start]⟩

/-- The chunk of a round is not more than what is left and what fits. -/
theorem chunk_le (w : PipeWriter) :
    w.chunk ≤ w.pipe.available ∧ w.chunk ≤ w.src.length - w.written := by
  rw [chunk]
  split <;> omega

theorem Stored.chunk (h : Stored p src w) :
    Stored p src { w with
      pipe := writeChunk w.pipe (w.src.drop w.written) w.chunk
      written := w.written + w.chunk } := by
  obtain ⟨hroom, hleft⟩ := w.chunk_le
  rw [h.source] at hleft
  have hlen : w.chunk ≤ (src.drop w.written).length := by
    rw [List.length_drop]
    exact hleft
  obtain ⟨hheads, hcontents⟩ := h.heads.writeChunk hroom hlen
  refine ⟨?_, h.source, Nat.add_le_of_le_sub' h.written_le hleft, ?_⟩
  · rw [h.source]
    exact hheads
  · dsimp only
    rw [h.source, hcontents, ← List.append_assoc, h.bytes, List.append_assoc, List.take_add]

theorem Stored.round (h : Stored p src w) : Stored p src (w.round blocking) := by
  obtain ⟨hheads, hsource, hle, hbytes⟩ := h
  rw [PipeWriter.round]
  repeat' split
  all_goals first | exact ⟨hheads, hsource, hle, hbytes⟩ | skip
  exact Stored.chunk ⟨hheads, hsource, hle, hbytes⟩

theorem Stored.resume (h : Stored p src w) (others : OtherTasks) :
    Stored p src (w.resume others) := by
  obtain ⟨hheads, hsplit⟩ := h.heads.takeReads others.reads
  refine ⟨⟨hheads.read, hheads.write⟩, h.source, h.written_le, ?_⟩
  change (w.taken ++ (takeReads w.pipe others.reads).1) ++
    (takeReads w.pipe others.reads).2.contents = _
  rw [List.append_assoc, hsplit]
  exact h.bytes

theorem Stored.step {label : Option OtherTasks} (h : Stored p src w)
    (hstep : WriterStep blocking w label w') : Stored p src w' := by
  cases hstep with
  | round => exact h.round
  | resume hstatus others => exact h.resume others

/-- The number of bytes stored, or an error when there are none, is right. -/
theorem Stored.reports_writtenOr (h : Stored p src w) {error : Int} (herror : error < 0) :
    Reports p src { w with status := .returned (w.writtenOr error) } := by
  rintro res hres
  obtain rfl := CallStatus.returned.inj hres
  by_cases hnone : w.written = 0
  · simp only [writtenOr, hnone, ne_eq, not_true_eq_false, if_false]
    refine ⟨fun hpos => absurd hpos (not_le.mpr herror), fun _ => ?_⟩
    simpa [hnone] using h.bytes
  · simp only [writtenOr, ne_eq, hnone, not_false_eq_true, if_true]
    exact ⟨fun _ => ⟨h.written_le, h.bytes⟩, fun hneg => absurd hneg (by omega)⟩

/-- A round that is not interrupted reports what is stored, if it is the last one. -/
theorem Stored.round_reports (h : Stored p src w) (hstatus : w.status = .looping)
    (hcalm : ¬ w.Interrupted blocking) : Reports p src (w.round blocking) := by
  rw [PipeWriter.round]
  split
  · rintro res hres
    obtain rfl := CallStatus.returned.inj hres
    exact ⟨fun _ => ⟨h.written_le, h.bytes⟩, fun hneg => absurd hneg (by omega)⟩
  · rename_i hleft
    split
    · exact h.reports_writtenOr (by decide)
    · rename_i hreader
      split
      · rename_i hfull
        split
        · exact h.reports_writtenOr (by decide)
        · rename_i hblocking
          split
          · rename_i hpending
            have hnone : w.written = 0 := by
              by_contra hsome
              exact hcalm ⟨hstatus, by simpa using hblocking, hpending, hreader, hfull, hsome,
                Nat.lt_of_not_le hleft⟩
            rintro res hres
            obtain rfl := CallStatus.returned.inj hres
            refine ⟨fun hpos => absurd hpos (by decide), fun _ => ?_⟩
            simpa [hnone] using h.bytes
          · rintro res hres
            cases hres
      · rintro res hres
        rw [hstatus] at hres
        cases hres

/-- An interrupted round is the last one, and keeps quiet about the bytes stored. -/
theorem Stored.round_interrupted (h : Stored p src w) (hlate : w.Interrupted blocking) :
    (w.round blocking).status = .returned eIntr ∧ ¬ Reports p src (w.round blocking) := by
  obtain ⟨-, hblocking, hpending, hreader, hfull, hsome, hleft⟩ := hlate
  have hround : w.round blocking = { w with status := .returned eIntr } := by
    rw [PipeWriter.round, if_neg (Nat.not_le.mpr hleft), if_neg hreader, if_pos hfull, hblocking,
      if_neg (by decide), if_pos hpending]
  rw [hround]
  refine ⟨rfl, fun hreports => ?_⟩
  have hnone : w.taken ++ w.pipe.contents = p.contents := (hreports eIntr rfl).2 (by decide)
  have hlength := congrArg List.length (hnone.symm.trans h.bytes)
  rw [List.length_append, List.length_take, Nat.min_eq_left h.written_le] at hlength
  omega

end PipeWriter

/-- A step in which no signal interrupts a writer that has stored a part of its bytes. -/
def CalmStep (blocking : Bool) (w : PipeWriter) (label : Option OtherTasks) (w' : PipeWriter) :
    Prop :=
  WriterStep blocking w label w' ∧ ¬ w.Interrupted blocking

theorem WriterStep.not_returned {blocking : Bool} {w w' : PipeWriter} {label : Option OtherTasks}
    (hstep : WriterStep blocking w label w') (res : Int) : w.status ≠ .returned res := by
  intro hstatus
  cases hstep with
  | round hloop => cases hloop.symm.trans hstatus
  | resume hyield => cases hyield.symm.trans hstatus

theorem WriterStep.unique {blocking : Bool} {w w' w'' : PipeWriter} {label : Option OtherTasks}
    (h : WriterStep blocking w label w') (h' : WriterStep blocking w label w'') : w' = w'' := by
  cases h with
  | round => cases h'; rfl
  | resume => cases h'; rfl

/-- From a state that reports right so far, the run reports right exactly when it is
calm. -/
theorem pipeWriter_reports_iff {p : PipeBuffer} {src : List UInt8} {blocking : Bool}
    {w finish : PipeWriter} {labels : List (Option OtherTasks)}
    (hrun : Run (WriterStep blocking) w labels finish) (hstored : w.Stored p src)
    (hreports : w.Reports p src) :
    finish.Reports p src ↔ Run (CalmStep blocking) w labels finish := by
  induction hrun with
  | nil w => exact iff_of_true hreports (.nil w)
  | cons hstep tail ih =>
      rename_i w next finish label rest
      by_cases hlate : w.Interrupted blocking
      · refine iff_of_false ?_ fun hcalm => ?_
        · cases hstep with
          | resume hyield => cases hyield.symm.trans hlate.1
          | round hloop =>
              obtain ⟨hback, hwrong⟩ := hstored.round_interrupted hlate
              cases tail with
              | nil => exact hwrong
              | cons hnext => exact absurd hback (hnext.not_returned eIntr)
        · cases hcalm with
          | cons hcalm => exact hcalm.2 hlate
      · have hnext : next.Reports p src := by
          cases hstep with
          | round hloop => exact hstored.round_reports hloop hlate
          | resume hyield others =>
              rintro res hres
              cases hres
        rw [ih (hstored.step hstep) hnext]
        constructor
        · exact fun hcalm => .cons ⟨hstep, hlate⟩ hcalm
        · intro hcalm
          cases hcalm with
          | cons hfirst hmore =>
              obtain rfl := hstep.unique hfirst.1
              exact hmore

/-- `pipe_write` reports exactly what it stored, through every interleaving in which no
signal interrupts it when a part is stored, and in no other. -/
theorem pipe_write_reports_iff {p : PipeBuffer} {src : List UInt8} {blocking pending : Bool}
    {finish : PipeWriter} {labels : List (Option OtherTasks)} (hp : p.Heads)
    (hrun : Run (WriterStep blocking) (.start p src pending) labels finish) :
    finish.Reports p src ↔ Run (CalmStep blocking) (.start p src pending) labels finish := by
  refine pipeWriter_reports_iff hrun (PipeWriter.start_stored hp src pending) ?_
  rintro res hres
  rw [PipeWriter.start] at hres
  split at hres
  · obtain rfl := CallStatus.returned.inj hres
    exact ⟨fun _ => ⟨Nat.zero_le _, by simp [PipeWriter.start]⟩,
      fun hneg => absurd hneg (by decide)⟩
  · split at hres
    · obtain rfl := CallStatus.returned.inj hres
      exact ⟨fun hpos => absurd hpos (by decide), fun _ => by simp [PipeWriter.start]⟩
    · cases hres

def oneByteLeft : PipeBuffer := ⟨2, 0, 1, 1, fun _ => 0⟩

/-- The two rounds of a write of one byte. -/
theorem pipe_write_reports_one :
    ((PipeWriter.start oneByteLeft [7] false).round true |>.round true).Reports oneByteLeft [7] ↔
      Run (CalmStep true) (.start oneByteLeft [7] false) [none, none]
        ((PipeWriter.start oneByteLeft [7] false).round true |>.round true) :=
  pipe_write_reports_iff ⟨by decide, by decide⟩ (.cons (.round rfl) (.cons (.round rfl) (.nil _)))

/-- With a signal pending, the second of two bytes does not fit: the first one is stored,
and the answer is `EINTR`. -/
theorem pipe_write_interrupted : ∃ finish,
    Run (WriterStep true) (.start oneByteLeft [7, 8] true) [none, none] finish ∧
      finish.status = .returned eIntr ∧
      finish.pipe.contents.length = oneByteLeft.contents.length + 1 ∧
      ¬ finish.Reports oneByteLeft [7, 8] := by
  refine ⟨_, .cons (.round rfl) (.cons (.round rfl) (.nil _)), rfl, ?_, fun hreports => ?_⟩
  · rw [PipeBuffer.contents_length, PipeBuffer.contents_length]
    decide
  · have hnone := congrArg List.length ((hreports eIntr rfl).2 (by decide))
    rw [List.length_append, PipeBuffer.contents_length, PipeBuffer.contents_length] at hnone
    exact absurd hnone (by decide)

end GlitchedOS
