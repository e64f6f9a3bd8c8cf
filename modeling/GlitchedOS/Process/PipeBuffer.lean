/-
The ring buffer of a pipe, with the reads and the non-blocking writes of
`pipe.c`, refines a queue of bytes: what is stored is the window of the buffer
from the read head to the write head.
-/
import GlitchedOS.Error
import Mathlib.Data.List.TakeDrop
import Mathlib.Data.List.Basic
import Mathlib.Tactic.Ring

namespace GlitchedOS
variable {p : PipeBuffer}

def pipeSize : Nat := 8184

def ePipe : Int := -32

/-- `pipe_t`.  The heads and counts are `uint16_t`. -/
structure PipeBuffer where
  readHead : Nat
  writeHead : Nat
  readerCount : Nat
  writerCount : Nat
  buffer : Nat → UInt8

/-- `create_pipe`; `kmalloc` returns memory filled with zero. -/
def PipeBuffer.create : PipeBuffer := ⟨0, 0, 1, 1, fun _ => 0⟩

/-- `memcpy` out of the buffer. -/
def copyOut (buffer : Nat → UInt8) (offset n : Nat) : List UInt8 :=
  (List.range n).map fun i => buffer (offset + i)

/-- `memcpy` of the first `n` bytes of `src` to `offset`. -/
def copyIn (buffer : Nat → UInt8) (offset : Nat) (src : List UInt8) (n : Nat) :
    Nat → UInt8 := fun i =>
  if offset ≤ i ∧ i < offset + n then (src[i - offset]?).getD (buffer i)
  else buffer i

/-- `pipe_read`: the result, the bytes copied out and the pipe left. -/
def pipeRead (p : PipeBuffer) (len : Nat) : Int × List UInt8 × PipeBuffer :=
  if p.readHead ≤ p.writeHead then
    if p.writeHead = p.readHead then
      if p.writerCount = 0 then (0, [], p) else (eAgain, [], p)
    else
      let maxBytes := p.writeHead - p.readHead
      let len := if maxBytes < len then maxBytes else len
      (len, copyOut p.buffer p.readHead len,
        { p with readHead := (p.readHead + len) % 2 ^ 16 })
  else
    let maxBytes := (pipeSize - p.readHead + p.writeHead) % pipeSize
    let len := if maxBytes < len then maxBytes else len
    let firstPartLength :=
      if len < pipeSize - p.readHead then len else pipeSize - p.readHead
    let first := copyOut p.buffer p.readHead firstPartLength
    let readHead := (p.readHead + firstPartLength) % pipeSize
    if firstPartLength = len then (len, first, { p with readHead := readHead })
    else
      (len, first ++ copyOut p.buffer 0 (len - firstPartLength),
        { p with readHead := (readHead + len - firstPartLength) % pipeSize })

/-- The bytes that still fit: `(read_head - write_head - 1 + PIPE_SIZE)` in `int`
arithmetic, where it is not negative. -/
def PipeBuffer.available (p : PipeBuffer) : Nat :=
  (((p.readHead : Int) - p.writeHead - 1 + pipeSize) % pipeSize).toNat

/-- The body of the loop of `pipe_write` for `chunk` bytes. -/
def writeChunk (p : PipeBuffer) (src : List UInt8) (chunk : Nat) : PipeBuffer :=
  let first := pipeSize - p.writeHead
  let first := if chunk < first then chunk else first
  let buffer := copyIn p.buffer p.writeHead src first
  let buffer := if first < chunk then
      copyIn buffer 0 (src.drop first) (chunk - first) else buffer
  { p with buffer := buffer, writeHead := (p.writeHead + chunk) % pipeSize }

/-- The loop of `pipe_write` when it does not block; `src` is what is left of the
caller's bytes. -/
def pipeWriteLoop : Nat → PipeBuffer → List UInt8 → Nat → Int × PipeBuffer
  | 0, p, _, written => (written, p)
  | n + 1, p, src, written =>
    if src.length = 0 then (written, p)
    else if p.readerCount = 0 then
      (if written = 0 then ePipe else written, p)
    else if p.available = 0 then
      (if written = 0 then eAgain else written, p)
    else
      let chunk :=
        if p.available < src.length then p.available else src.length
      pipeWriteLoop n (writeChunk p src chunk) (src.drop chunk) (written + chunk)

/-- `pipe_write` with `blocking = 0`.  Every round writes a byte, so the loop ends
within as many rounds as there are bytes, and one more for its last test. -/
def pipeWrite (p : PipeBuffer) (src : List UInt8) : Int × PipeBuffer :=
  if src.length = 0 then (0, p)
  else if p.readerCount = 0 then (ePipe, p)
  else pipeWriteLoop (src.length + 1) p src 0

/-- The bytes of the ring from `start` on. -/
def window (buffer : Nat → UInt8) (start n : Nat) : List UInt8 :=
  (List.range n).map fun i => buffer ((start + i) % pipeSize)

theorem window_length (buffer : Nat → UInt8) (start n : Nat) :
    (window buffer start n).length = n := by
  simp [window]

theorem window_add (buffer : Nat → UInt8) (start m n : Nat) :
    window buffer start (m + n) =
      window buffer start m ++ window buffer (start + m) n := by
  simp only [window, List.range_add, List.map_append, List.map_map]
  congr 1
  refine List.map_congr_left fun i _ => ?_
  simp [Nat.add_assoc]

theorem window_mod (buffer : Nat → UInt8) (start n : Nat) :
    window buffer (start % pipeSize) n = window buffer start n := by
  refine List.map_congr_left fun i _ => ?_
  rw [Nat.mod_add_mod]

theorem window_congr {buffer buffer' : Nat → UInt8} {start n : Nat}
    (h : ∀ i < n, buffer' ((start + i) % pipeSize) =
      buffer ((start + i) % pipeSize)) :
    window buffer' start n = window buffer start n :=
  List.map_congr_left fun i hi => h i (List.mem_range.mp hi)

theorem window_take {buffer : Nat → UInt8} {start m n : Nat} (h : m ≤ n) :
    (window buffer start n).take m = window buffer start m := by
  obtain ⟨rest, rfl⟩ := Nat.exists_eq_add_of_le h
  rw [window_add, List.take_left' (window_length _ _ _)]

theorem window_drop {buffer : Nat → UInt8} {start m n : Nat} (h : m ≤ n) :
    (window buffer start n).drop m = window buffer (start + m) (n - m) := by
  obtain ⟨rest, rfl⟩ := Nat.exists_eq_add_of_le h
  rw [window_add, List.drop_left' (window_length _ _ _), Nat.add_sub_cancel_left]

/-- A copy that does not reach the end of the buffer is a window. -/
theorem copyOut_eq_window {buffer : Nat → UInt8} {offset n : Nat}
    (h : offset + n ≤ pipeSize) :
    copyOut buffer offset n = window buffer offset n := by
  refine List.map_congr_left fun i hi => ?_
  rw [Nat.mod_eq_of_lt (by have := List.mem_range.mp hi; omega)]

namespace PipeBuffer

/-- The heads stay inside the buffer, and both ends are open. -/
structure Valid (p : PipeBuffer) : Prop where
  readHead : p.readHead < pipeSize
  writeHead : p.writeHead < pipeSize
  reader : p.readerCount ≠ 0
  writer : p.writerCount ≠ 0

def stored (p : PipeBuffer) : Nat :=
  (p.writeHead + pipeSize - p.readHead) % pipeSize

def contents (p : PipeBuffer) : List UInt8 :=
  window p.buffer p.readHead p.stored

theorem contents_length (p : PipeBuffer) : p.contents.length = p.stored :=
  window_length _ _ _

theorem stored_lt (p : PipeBuffer) : p.stored < pipeSize :=
  Nat.mod_lt _ (by decide)

theorem available_eq (h : p.Valid) :
    p.available = pipeSize - 1 - p.stored := by
  have hr := h.readHead
  have hw := h.writeHead
  rw [available, stored]
  simp only [pipeSize] at *
  omega

end PipeBuffer

namespace PipeBuffer

/-- `n` bytes taken out. -/
def advance (p : PipeBuffer) (n : Nat) : PipeBuffer :=
  { p with readHead := (p.readHead + n) % pipeSize }

theorem advance_spec (h : p.Valid) {n : Nat} (hn : n ≤ p.stored) :
    (p.advance n).Valid ∧ (p.advance n).contents = p.contents.drop n := by
  have hr := h.readHead
  have hw := h.writeHead
  have hstored : (p.advance n).stored = p.stored - n := by
    simp only [stored, advance, pipeSize] at *
    omega
  refine ⟨⟨Nat.mod_lt _ (by decide), hw, h.reader, h.writer⟩, ?_⟩
  rw [contents, hstored, contents, window_drop hn]
  exact window_mod _ _ _

end PipeBuffer

theorem pipeRead_empty (h : p.Valid) (hempty : p.stored = 0)
    (len : Nat) : pipeRead p len = (eAgain, [], p) := by
  have hr := h.readHead
  have hw := h.writeHead
  have heq : p.writeHead = p.readHead := by
    simp only [PipeBuffer.stored, pipeSize] at *
    omega
  rw [pipeRead, if_pos (Nat.le_of_eq heq.symm), if_pos heq, if_neg h.writer]

theorem pipeRead_spec (h : p.Valid) (hstored : p.stored ≠ 0) (len : Nat) :
    pipeRead p len = (((min len p.stored : Nat) : Int), p.contents.take len,
      p.advance (min len p.stored)) := by
  have hr := h.readHead
  have hw := h.writeHead
  have htake : p.contents.take len =
      window p.buffer p.readHead (min len p.stored) := by
    rw [← window_take (Nat.min_le_right len p.stored), ← PipeBuffer.contents,
      List.take_eq_take_iff, PipeBuffer.contents_length]
    omega
  rw [pipeRead, htake]
  by_cases hle : p.readHead ≤ p.writeHead
  · have hstraight : p.stored = p.writeHead - p.readHead := by
      simp only [PipeBuffer.stored, pipeSize] at *
      omega
    have hne : ¬p.writeHead = p.readHead := by omega
    rw [if_pos hle, if_neg hne]
    have hlen : (if p.writeHead - p.readHead < len then
        p.writeHead - p.readHead else len) = min len p.stored := by
      rw [hstraight]
      split <;> omega
    dsimp only
    rw [hlen, copyOut_eq_window (by simp only [pipeSize] at *; omega),
      PipeBuffer.advance]
    congr 3
    simp only [pipeSize] at *
    omega
  · have hwrapped : p.stored = pipeSize - p.readHead + p.writeHead := by
      simp only [PipeBuffer.stored, pipeSize] at *
      omega
    rw [if_neg hle]
    have hlen : (if (pipeSize - p.readHead + p.writeHead) % pipeSize < len then
        (pipeSize - p.readHead + p.writeHead) % pipeSize else len) =
          min len p.stored := by
      rw [Nat.mod_eq_of_lt (by omega), ← hwrapped]
      split <;> omega
    dsimp only
    rw [hlen]
    generalize hn : min len p.stored = n
    split
    · rename_i hone
      rw [if_pos rfl, copyOut_eq_window (by omega)]
      rfl
    · rename_i htwo
      have hsplit : window p.buffer p.readHead n =
          copyOut p.buffer p.readHead (pipeSize - p.readHead) ++
            copyOut p.buffer 0 (n - (pipeSize - p.readHead)) := by
        rw [copyOut_eq_window (by omega), copyOut_eq_window (by omega),
          ← window_mod p.buffer 0,
          show 0 % pipeSize = (p.readHead + (pipeSize - p.readHead)) % pipeSize
            by simp only [pipeSize] at *; omega, window_mod, ← window_add]
        congr 1
        omega
      rw [hsplit]
      by_cases hexact : pipeSize - p.readHead = n
      · rw [if_pos hexact, PipeBuffer.advance, hexact, Nat.sub_self]
        simp [copyOut]
      · rw [if_neg hexact, PipeBuffer.advance]
        congr 3
        simp only [pipeSize] at *
        omega

theorem copyIn_inside {buffer : Nat → UInt8} {offset n i : Nat}
    {src : List UInt8} (hi : i < n) (hlen : i < src.length) :
    copyIn buffer offset src n (offset + i) = src.get ⟨i, hlen⟩ := by
  rw [copyIn, if_pos (by omega), Nat.add_sub_cancel_left,
    List.getElem?_eq_getElem hlen]
  rfl

theorem copyIn_outside {buffer : Nat → UInt8} {offset n i : Nat}
    {src : List UInt8} (hi : i < offset ∨ offset + n ≤ i) :
    copyIn buffer offset src n i = buffer i := by
  rw [copyIn, if_neg (by omega)]

/-- Where a chunk is written. -/
theorem writeChunk_new (hw : p.writeHead < pipeSize)
    {src : List UInt8} {chunk i : Nat} (hsize : chunk < pipeSize)
    (hi : i < chunk) (hlen : i < src.length) :
    (writeChunk p src chunk).buffer ((p.writeHead + i) % pipeSize) =
      src.get ⟨i, hlen⟩ := by
  rw [writeChunk]
  dsimp only
  by_cases hone : chunk ≤ pipeSize - p.writeHead
  · rw [if_neg (by split <;> omega), Nat.mod_eq_of_lt (by omega)]
    exact copyIn_inside (by split <;> omega) hlen
  · have hfirst : ¬chunk < pipeSize - p.writeHead := by omega
    simp only [if_neg hfirst, if_pos (Nat.lt_of_not_le hone)]
    by_cases hin : i < pipeSize - p.writeHead
    · rw [Nat.mod_eq_of_lt (by omega), copyIn_outside (by omega)]
      exact copyIn_inside hin hlen
    · have hpos : (p.writeHead + i) % pipeSize =
          0 + (i - (pipeSize - p.writeHead)) := by
        simp only [pipeSize] at *
        omega
      have hdrop : i - (pipeSize - p.writeHead) <
          (src.drop (pipeSize - p.writeHead)).length := by
        rw [List.length_drop]
        omega
      rw [hpos, copyIn_inside (by omega) hdrop, List.get_eq_getElem,
        List.get_eq_getElem, List.getElem_drop]
      congr 1
      dsimp only
      omega

theorem writeChunk_old (hw : p.writeHead < pipeSize)
    {src : List UInt8} {chunk j : Nat} (hj : j < pipeSize)
    (hfar : ∀ i < chunk, j ≠ (p.writeHead + i) % pipeSize) :
    (writeChunk p src chunk).buffer j = p.buffer j := by
  rw [writeChunk]
  dsimp only
  by_cases hone : chunk ≤ pipeSize - p.writeHead
  · have hout : j < p.writeHead ∨ p.writeHead + chunk ≤ j := by
      by_contra hin
      refine hfar (j - p.writeHead) (by omega) ?_
      rw [Nat.mod_eq_of_lt (by omega)]
      omega
    rw [if_neg (by split <;> omega)]
    exact copyIn_outside (by split <;> omega)
  · have hfirst : ¬chunk < pipeSize - p.writeHead := by omega
    simp only [if_neg hfirst, if_pos (Nat.lt_of_not_le hone)]
    have hlow : chunk - (pipeSize - p.writeHead) ≤ j := by
      by_contra hin
      refine hfar (pipeSize - p.writeHead + j) (by omega) ?_
      simp only [pipeSize] at *
      omega
    have hhigh : j < p.writeHead := by
      by_contra hin
      refine hfar (j - p.writeHead) (by omega) ?_
      rw [Nat.mod_eq_of_lt (by omega)]
      omega
    rw [copyIn_outside (by omega), copyIn_outside (by omega)]

namespace PipeBuffer

theorem writeChunk_spec (h : p.Valid) (src : List UInt8)
    (chunk : Nat) (hroom : p.stored + chunk < pipeSize)
    (hlen : chunk ≤ src.length) :
    (writeChunk p src chunk).Valid ∧
      (writeChunk p src chunk).stored = p.stored + chunk ∧
      (writeChunk p src chunk).contents = p.contents ++ src.take chunk := by
  have hr := h.readHead
  have hw := h.writeHead
  have hstored : (writeChunk p src chunk).stored = p.stored + chunk := by
    simp only [stored, writeChunk, pipeSize] at *
    omega
  refine ⟨⟨hr, Nat.mod_lt _ (by decide), h.reader, h.writer⟩, hstored, ?_⟩
  rw [contents, hstored, window_add]
  -- the old bytes are behind the read head, the new ones from the write head on
  refine congrArg₂ (· ++ ·) (window_congr fun i hi => ?_) ?_
  · refine writeChunk_old hw (Nat.mod_lt _ (by decide)) fun j hj => ?_
    simp only [stored, writeChunk, pipeSize] at *
    omega
  · refine List.ext_getElem ?_ fun i hi hi' => ?_
    · rw [window_length, List.length_take, Nat.min_eq_left hlen]
    rw [window_length] at hi
    have hpos : ((writeChunk p src chunk).readHead + p.stored + i) % pipeSize =
        (p.writeHead + i) % pipeSize := by
      simp only [stored, writeChunk, pipeSize] at *
      omega
    rw [List.getElem_take]
    simp only [window, List.getElem_map, List.getElem_range, hpos]
    exact writeChunk_new hw (by omega) hi (by omega)

end PipeBuffer

/-- Once the pipe is full, or all is written, the loop ends. -/
theorem pipeWriteLoop_done (h : p.Valid) {src : List UInt8}
    {n written : Nat} (hn : n ≠ 0) (hwritten : written ≠ 0)
    (hdone : src.length = 0 ∨ p.available = 0) :
    pipeWriteLoop n p src written = ((written : Int), p) := by
  obtain ⟨n, rfl⟩ := Nat.exists_eq_succ_of_ne_zero hn
  rw [pipeWriteLoop]
  split
  · rfl
  · rename_i hsrc
    simp [h.reader, hdone.resolve_left hsrc]

theorem pipeWrite_full (h : p.Valid) {src : List UInt8}
    (hsrc : src ≠ []) (hfull : p.available = 0) :
    pipeWrite p src = (eAgain, p) := by
  have hlen : ¬src.length = 0 := fun hzero =>
    hsrc (List.length_eq_zero_iff.mp hzero)
  rw [pipeWrite, if_neg hlen, if_neg h.reader, pipeWriteLoop, if_neg hlen,
    if_neg h.reader, if_pos hfull, if_pos rfl]

/-- A write takes as many bytes as fit. -/
theorem pipeWrite_spec (h : p.Valid) {src : List UInt8}
    (hsrc : src ≠ []) (hroom : p.available ≠ 0) :
    pipeWrite p src = (((min src.length p.available : Nat) : Int),
      writeChunk p src (min src.length p.available)) := by
  have hlen : ¬src.length = 0 := fun hzero =>
    hsrc (List.length_eq_zero_iff.mp hzero)
  have hchunk : (if p.available < src.length then p.available else src.length) =
      min src.length p.available := by
    split <;> omega
  rw [pipeWrite, if_neg hlen, if_neg h.reader, pipeWriteLoop, if_neg hlen,
    if_neg h.reader, if_neg hroom]
  dsimp only
  rw [hchunk, Nat.zero_add]
  generalize hm : min src.length p.available = m
  have havail := PipeBuffer.available_eq h
  have hspec := PipeBuffer.writeChunk_spec h src m (by omega) (by omega)
  refine pipeWriteLoop_done hspec.1 hlen (by omega) ?_
  rw [PipeBuffer.available_eq hspec.1, hspec.2.1, List.length_drop]
  omega

inductive PipeCall where
  | read (len : Nat)
  | write (bytes : List UInt8)

/-- A pipe with what its writes have accepted and its reads have returned. -/
structure PipeTrace where
  pipe : PipeBuffer
  accepted : List UInt8
  returned : List UInt8

def PipeTrace.start : PipeTrace := ⟨.create, [], []⟩

/-- One call.  A write that returns `n` has accepted the first `n` bytes. -/
def PipeTrace.call (s : PipeTrace) : PipeCall → PipeTrace
  | .read len =>
      let (_, bytes, pipe) := pipeRead s.pipe len
      { s with pipe := pipe, returned := s.returned ++ bytes }
  | .write bytes =>
      let (ret, pipe) := pipeWrite s.pipe bytes
      { s with pipe := pipe, accepted := s.accepted ++ bytes.take ret.toNat }

/-- The queue holds what was accepted and not yet returned. -/
structure PipeTrace.Queued (s : PipeTrace) : Prop where
  valid : s.pipe.Valid
  queue : s.accepted = s.returned ++ s.pipe.contents

theorem PipeTrace.start_queued : PipeTrace.start.Queued where
  valid := ⟨by decide, by decide, by decide, by decide⟩
  queue := rfl

theorem PipeTrace.call_queued {s : PipeTrace} (h : s.Queued) (call : PipeCall) :
    (s.call call).Queued := by
  cases call with
  | read len =>
      rw [PipeTrace.call]
      by_cases hempty : s.pipe.stored = 0
      · rw [pipeRead_empty h.valid hempty]
        exact ⟨h.valid, by simpa using h.queue⟩
      · rw [pipeRead_spec h.valid hempty]
        obtain ⟨hvalid, hcontents⟩ := PipeBuffer.advance_spec h.valid
          (Nat.min_le_right len s.pipe.stored)
        refine ⟨hvalid, ?_⟩
        have hsplit : s.pipe.contents.take len ++
            s.pipe.contents.drop (min len s.pipe.stored) = s.pipe.contents := by
          have htake : s.pipe.contents.take len =
              s.pipe.contents.take (min len s.pipe.stored) := by
            rw [List.take_eq_take_iff, PipeBuffer.contents_length]
            omega
          rw [htake, List.take_append_drop]
        dsimp only
        rw [hcontents, List.append_assoc, hsplit]
        exact h.queue
  | write bytes =>
      rw [PipeTrace.call]
      by_cases hbytes : bytes = []
      · subst hbytes
        exact ⟨h.valid, by simpa [pipeWrite] using h.queue⟩
      by_cases hroom : s.pipe.available = 0
      · rw [pipeWrite_full h.valid hbytes hroom]
        exact ⟨h.valid, by simpa [eAgain] using h.queue⟩
      · rw [pipeWrite_spec h.valid hbytes hroom]
        have havail := PipeBuffer.available_eq h.valid
        obtain ⟨hvalid, -, hcontents⟩ := PipeBuffer.writeChunk_spec h.valid
          bytes (min bytes.length s.pipe.available) (by omega) (by omega)
        refine ⟨hvalid, ?_⟩
        dsimp only
        rw [hcontents, Int.toNat_natCast, ← List.append_assoc, ← h.queue]

theorem PipeTrace.calls_queued {s : PipeTrace} (h : s.Queued)
    (calls : List PipeCall) : (calls.foldl PipeTrace.call s).Queued := by
  induction calls generalizing s with
  | nil => exact h
  | cons call rest ih => exact ih (call_queued h call)

def PipeTrace.run (calls : List PipeCall) : PipeTrace :=
  calls.foldl PipeTrace.call .start

/-- A pipe is a queue of `PIPE_SIZE - 1` bytes, through every sequence of reads and
non-blocking writes. -/
theorem pipe_fifo (calls : List PipeCall) :
    let s := PipeTrace.run calls
    s.pipe.readHead < pipeSize ∧ s.pipe.writeHead < pipeSize ∧
      s.returned <+: s.accepted ∧
      s.accepted = s.returned ++ s.pipe.contents ∧
      s.pipe.contents.length ≤ pipeSize - 1 ∧
      (∀ bytes : List UInt8, 1 ≤ bytes.length →
        (pipeWrite s.pipe bytes).1 =
          if pipeSize - 1 - s.pipe.contents.length = 0 then eAgain
          else (min bytes.length (pipeSize - 1 - s.pipe.contents.length) : Nat)) ∧
      (∀ len, (pipeRead s.pipe len).1 =
          (if s.pipe.contents.length = 0 then eAgain
            else (min len s.pipe.contents.length : Nat)) ∧
        (pipeRead s.pipe len).2.1 = s.pipe.contents.take len) := by
  intro s
  obtain ⟨hvalid, hqueue⟩ : s.Queued :=
    PipeTrace.calls_queued PipeTrace.start_queued calls
  have hstored := s.pipe.stored_lt
  have havail := PipeBuffer.available_eq hvalid
  refine ⟨hvalid.readHead, hvalid.writeHead, ⟨_, hqueue.symm⟩, hqueue, ?_,
    fun bytes hbytes => ?_, fun len => ?_⟩
  · rw [PipeBuffer.contents_length]
    omega
  · have hne : bytes ≠ [] := List.length_pos_iff.mp hbytes
    rw [PipeBuffer.contents_length, ← havail]
    by_cases hfull : s.pipe.available = 0
    · rw [if_pos hfull, pipeWrite_full hvalid hne hfull]
    · rw [if_neg hfull, pipeWrite_spec hvalid hne hfull]
  · rw [PipeBuffer.contents_length]
    by_cases hempty : s.pipe.stored = 0
    · rw [if_pos hempty, pipeRead_empty hvalid hempty]
      refine ⟨rfl, ?_⟩
      rw [List.length_eq_zero_iff.mp (s.pipe.contents_length.trans hempty),
        List.take_nil]
    · rw [if_neg hempty, pipeRead_spec hvalid hempty]
      exact ⟨rfl, rfl⟩

end GlitchedOS
