/-
`O_NONBLOCK` on the two ends of a pipe.  `read` in `fd.c` tests the flag itself; `write`
hands it to `pipe_write` in the place of `blocking`, so that a writer waits when it is set
and does not wait when it is not.  That shows as soon as the bytes do not fit.
-/
import GlitchedOS.Process.PipeBlocking
import GlitchedOS.Process.Files

namespace GlitchedOS

/-- `flags & O_NONBLOCK` as a condition. -/
def isNonblock (flags : BitVec 32) : Bool := hasBits flags oNonblock

/-- A call of `read` on the read end of a pipe on its way. -/
structure PipeReader where
  pipe : PipeBuffer
  len : Nat
  pending : Bool
  bytes : List UInt8
  status : CallStatus

namespace PipeReader

/-- The test of the access mode in front of the loop of `read`. -/
def start (flags : BitVec 32) (p : PipeBuffer) (len : Nat) (pending : Bool) : PipeReader where
  pipe := p
  len := len
  pending := pending
  bytes := []
  status := if flags &&& oAccess = oWronly then .returned eBadf else .looping

/-- One round of the loop of `read` for a pipe. -/
def round (flags : BitVec 32) (r : PipeReader) : PipeReader :=
  let read := pipeRead r.pipe r.len
  if isNonblock flags ∨ read.1 ≠ eAgain then
    { r with pipe := read.2.2, bytes := read.2.1, status := .returned read.1 }
  else if r.pending then
    { r with pipe := read.2.2, bytes := read.2.1, status := .returned eIntr }
  else { r with pipe := read.2.2, bytes := read.2.1, status := .yielding }

/-- The reader comes back from `yield_current` to the pipe that others leave. -/
def resume (r : PipeReader) (pipe : PipeBuffer) (pending : Bool) : PipeReader :=
  { r with pipe := pipe, pending := pending, status := .looping }

end PipeReader

/-- A round, or what others do while the reader yields. -/
inductive ReaderStep (flags : BitVec 32) :
    PipeReader → Option (PipeBuffer × Bool) → PipeReader → Prop
  | round {r : PipeReader} (hstatus : r.status = .looping) :
      ReaderStep flags r none (r.round flags)
  | resume {r : PipeReader} (hstatus : r.status = .yielding) (pipe : PipeBuffer) (pending : Bool) :
      ReaderStep flags r (some (pipe, pending)) (r.resume pipe pending)

/-- The argument `blocking` of `pipe_write`, a `uint8_t`. -/
def writeBlocking (flags : BitVec 32) : Bool := decide ((flags &&& oNonblock).setWidth 8 ≠ 0)

/-- The test of the access mode in front of `pipe_write`. -/
def writeStart (flags : BitVec 32) (p : PipeBuffer) (src : List UInt8) (pending : Bool) :
    PipeWriter :=
  if flags &&& oAccess = oRdonly then
    { PipeWriter.start p src pending with status := .returned eBadf }
  else .start p src pending

/-- Other tasks keep a reader, and there is no signal. -/
def KeepsReader : Option OtherTasks → Prop
  | none => True
  | some others => others.readerCount ≠ 0 ∧ others.pending = false

/-- A `read` with the flag comes back without a yield, and one without it does not answer
`EAGAIN`. -/
structure ReadMeans (flags : BitVec 32) (p : PipeBuffer) (len : Nat) : Prop where
  nonblock : isNonblock flags = true → ∀ pending, ∃ rounds r res,
    Run (ReaderStep flags) (.start flags p len pending) (List.replicate rounds none) r ∧
      r.status = .returned res
  blocks : isNonblock flags = false → ∀ labels r,
    Run (ReaderStep flags) (.start flags p len false) labels r → r.status ≠ .returned eAgain

/-- A `write` with the flag comes back without a yield, and one without it, as long as
there are a reader and no signal, comes back only with all bytes stored. -/
structure WriteMeans (flags : BitVec 32) (p : PipeBuffer) (src : List UInt8) : Prop where
  nonblock : isNonblock flags = true → ∀ pending, ∃ rounds w res,
    Run (WriterStep (writeBlocking flags)) (writeStart flags p src pending)
      (List.replicate rounds none) w ∧ w.status = .returned res
  blocks : isNonblock flags = false → p.readerCount ≠ 0 → ∀ labels w res,
    (∀ label ∈ labels, KeepsReader label) →
    Run (WriterStep (writeBlocking flags)) (writeStart flags p src false) labels w →
    w.status = .returned res → w.written = src.length ∧ res = src.length

/-- The flag means the same for the two ends of a pipe. -/
def NonblockMeans (rflags wflags : BitVec 32) (p : PipeBuffer) (len : Nat) (src : List UInt8) :
    Prop :=
  ReadMeans rflags p len ∧ WriteMeans wflags p src

theorem writeBlocking_eq (flags : BitVec 32) : writeBlocking flags = isNonblock flags := by
  have hbyte : (flags &&& oNonblock).toNat < 2 ^ 8 := by
    have hle : (flags &&& oNonblock).toNat ≤ oNonblock.toNat := by
      rw [BitVec.toNat_and]
      exact Nat.and_le_right
    exact Nat.lt_of_le_of_lt hle (by decide)
  have hzero : (flags &&& oNonblock).setWidth 8 = 0 ↔ flags &&& oNonblock = 0#32 := by
    constructor
    · intro h
      have hnat := congrArg BitVec.toNat h
      rw [BitVec.toNat_setWidth, Nat.mod_eq_of_lt hbyte] at hnat
      exact BitVec.eq_of_toNat_eq hnat
    · intro h
      rw [h]
      rfl
  rw [writeBlocking, isNonblock, hasBits, Bool.eq_iff_iff, decide_eq_true_iff, bne_iff_ne]
  exact not_congr hzero

theorem readMeans (flags : BitVec 32) (p : PipeBuffer) (len : Nat) : ReadMeans flags p len := by
  constructor
  · intro hflag pending
    by_cases haccess : flags &&& oAccess = oWronly
    · exact ⟨0, _, eBadf, .nil _, by rw [PipeReader.start, if_pos haccess]⟩
    · have hloop : (PipeReader.start flags p len pending).status = .looping := by
        rw [PipeReader.start, if_neg haccess]
      refine ⟨1, _, (pipeRead p len).1, .cons (.round hloop) (.nil _), ?_⟩
      rw [PipeReader.round, if_pos (.inl hflag)]
      rfl
  · intro hflag labels r hrun
    refine hrun.invariant (fun r => r.status ≠ .returned eAgain) ?_ ?_
    · rintro r label r' (hloop | hyield) hnot
      · rw [PipeReader.round]
        split
        · rename_i hback
          intro hres
          exact (hback.resolve_left (by simp [hflag])) (CallStatus.returned.inj hres)
        · split
          · intro hres
            cases hres
          · intro hres
            cases hres
      · intro hres
        cases hres
    · rw [PipeReader.start]
      split
      · intro hres
        cases hres
      · intro hres
        cases hres

theorem available_writeChunk {p : PipeBuffer} (h : p.Heads) {src : List UInt8} {chunk : Nat}
    (hroom : chunk ≤ p.available) (hlen : chunk ≤ src.length) :
    (writeChunk p src chunk).available = p.available - chunk := by
  have hstored := p.stored_lt
  have havail := h.available_eq
  have hfits : p.stored + chunk < pipeSize := by omega
  have hafter : (writeChunk p src chunk).stored = p.stored + chunk :=
    (PipeBuffer.writeChunk_spec h.opened src chunk hfits hlen).2.1
  rw [(h.writeChunk hroom hlen).1.available_eq, hafter]
  omega

namespace PipeWriter

/-- The bytes that are left do not fit. -/
structure Short (w : PipeWriter) : Prop where
  looping : w.status = .looping
  heads : w.pipe.Heads
  reader : w.pipe.readerCount ≠ 0
  left : w.pipe.available < w.src.length - w.written

variable {w : PipeWriter} {blocking : Bool}

/-- A round fills the pipe, and the bytes that are left still do not fit. -/
theorem Short.round_fills (h : Short w) (hroom : w.pipe.available ≠ 0) :
    Short (w.round blocking) ∧ (w.round blocking).pipe.available = 0 ∧
      (w.round blocking).written = w.written + w.pipe.available ∧
      (w.round blocking).pending = w.pending ∧ (w.round blocking).src = w.src := by
  have hleft := h.left
  have hchunk : w.chunk = w.pipe.available := if_pos hleft
  have hlen : w.pipe.available ≤ (w.src.drop w.written).length := by
    rw [List.length_drop]
    omega
  have hround : w.round blocking = { w with
      pipe := writeChunk w.pipe (w.src.drop w.written) w.pipe.available
      written := w.written + w.pipe.available } := by
    rw [PipeWriter.round, if_neg (by omega), if_neg h.reader, if_neg hroom, hchunk]
  have hfull := available_writeChunk h.heads (Nat.le_refl _) hlen
  rw [Nat.sub_self] at hfull
  rw [hround]
  refine ⟨⟨h.looping, (h.heads.writeChunk (Nat.le_refl _) hlen).1, h.reader, ?_⟩, hfull, rfl,
    rfl, rfl⟩
  change (writeChunk _ _ _).available < w.src.length - (w.written + w.pipe.available)
  rw [hfull]
  omega

/-- At a full pipe the writer waits when `blocking` says so. -/
theorem Short.round_full (h : Short w) (hfull : w.pipe.available = 0) :
    w.round blocking = { w with
      status := if blocking then (if w.pending then .returned eIntr else .yielding)
        else .returned (w.writtenOr eAgain) } := by
  have hleft := h.left
  rw [PipeWriter.round, if_neg (by omega), if_neg h.reader, if_pos hfull]
  cases blocking with
  | false => rfl
  | true =>
      cases hpending : w.pending with
      | false => simp
      | true => simp

/-- A blocking writer whose bytes do not fit does not come back without a yield. -/
theorem Short.waits {finish : PipeWriter} {rounds : Nat} (h : Short w)
    (hpending : w.pending = false)
    (hrun : Run (WriterStep true) w (List.replicate rounds none) finish) (res : Int) :
    finish.status ≠ .returned res := by
  have hrounds : Run (fun w label w' => WriterStep true w label w' ∧ label = none) w
      (List.replicate rounds none) finish :=
    hrun.mono_of_mem fun w label w' hmem hstep => ⟨hstep, List.eq_of_mem_replicate hmem⟩
  have hstuck := hrounds.invariant
    (fun w => (Short w ∧ w.pending = false) ∨ w.status = .yielding) ?_ (.inl ⟨h, hpending⟩)
  · rcases hstuck with ⟨hshort, -⟩ | hyield
    · simp [hshort.looping]
    · simp [hyield]
  · rintro w label w' ⟨hstep, rfl⟩ hinv
    cases hstep with
    | round hloop =>
        obtain ⟨hshort, hcalm⟩ := hinv.resolve_right (by simp [hloop])
        by_cases hfull : w.pipe.available = 0
        · rw [hshort.round_full hfull]
          simp [hcalm]
        · obtain ⟨hmore, -, -, hstays, -⟩ : Short (w.round true) ∧ _ := hshort.round_fills hfull
          exact .inl ⟨hmore, hstays.trans hcalm⟩

/-- A writer that does not block comes back with less than all bytes stored. -/
theorem Short.gives_up (h : Short w) : ∃ rounds finish res,
    Run (WriterStep false) w (List.replicate rounds none) finish ∧ finish.status = .returned res ∧
      finish.written < w.src.length := by
  have hleft := h.left
  by_cases hfull : w.pipe.available = 0
  · refine ⟨1, _, w.writtenOr eAgain, .cons (.round h.looping) (.nil _), ?_⟩
    rw [h.round_full hfull]
    exact ⟨rfl, by dsimp only; omega⟩
  · obtain ⟨hmore, hnow, hwritten, -, hsrc⟩ : Short (w.round false) ∧ _ := h.round_fills hfull
    refine ⟨2, _, (w.round false).writtenOr eAgain,
      .cons (.round h.looping) (.cons (.round hmore.looping) (.nil _)), ?_⟩
    rw [hmore.round_full hnow]
    exact ⟨rfl, by dsimp only; omega⟩

theorem round_all (hsrc : w.src ≠ []) (hnone : w.written = 0) (hreader : w.pipe.readerCount ≠ 0)
    (hfits : w.src.length ≤ w.pipe.available) :
    (w.round blocking).status = w.status ∧ (w.round blocking).src = w.src ∧
      (w.round blocking).written = w.src.length := by
  have hpos := List.length_pos_iff.mpr hsrc
  have hchunk : w.chunk = w.src.length := by
    rw [PipeWriter.chunk, hnone]
    split <;> omega
  rw [PipeWriter.round, if_neg (by omega), if_neg hreader, if_neg (by omega)]
  exact ⟨rfl, rfl, by dsimp only; omega⟩

/-- With all bytes stored the loop ends. -/
theorem round_done (hall : w.written = w.src.length) :
    w.round blocking = { w with status := .returned w.written } := by
  rw [PipeWriter.round, if_pos hall.ge]

/-- Bytes that fit are stored in one round, and the next one comes back. -/
structure Fits (p : PipeBuffer) (src : List UInt8) (w : PipeWriter) : Prop where
  source : w.src = src
  progress : (w.status = .looping ∧ w.pipe = p ∧ w.written = 0) ∨
    (w.status = .looping ∧ w.written = src.length) ∨
    (w.status = .returned src.length ∧ w.written = src.length)

theorem Fits.step {p : PipeBuffer} {src : List UInt8} {w' : PipeWriter}
    {label : Option OtherTasks} (hsrc : src ≠ []) (hfits : src.length ≤ p.available)
    (hreader : p.readerCount ≠ 0) (h : Fits p src w) (hstep : WriterStep blocking w label w') :
    Fits p src w' := by
  obtain ⟨rfl, hprogress⟩ := h
  cases hstep with
  | resume hyield =>
      rcases hprogress with ⟨hloop, -⟩ | ⟨hloop, -⟩ | ⟨hback, -⟩
      · cases hyield.symm.trans hloop
      · cases hyield.symm.trans hloop
      · cases hyield.symm.trans hback
  | round hloop =>
      rcases hprogress with ⟨-, rfl, hnone⟩ | ⟨-, hall⟩ | ⟨hback, -⟩
      · obtain ⟨hstatus, hsame, hall⟩ : (w.round blocking).status = w.status ∧ _ :=
          round_all hsrc hnone hreader hfits
        exact ⟨hsame, .inr (.inl ⟨hstatus.trans hloop, hall⟩)⟩
      · rw [round_done hall]
        exact ⟨rfl, .inr (.inr ⟨by rw [hall], hall⟩)⟩
      · cases hloop.symm.trans hback

end PipeWriter

/-- The flag means for a `write` what it means for a `read` exactly when the bytes fit into
the pipe at once, or nobody reads from it. -/
theorem writeMeans_iff {flags : BitVec 32} {p : PipeBuffer} {src : List UInt8} (hp : p.Heads)
    (haccess : flags &&& oAccess = oWronly) (hsrc : src ≠ []) :
    WriteMeans flags p src ↔ src.length ≤ p.available ∨ p.readerCount = 0 := by
  have hpos := List.length_pos_iff.mpr hsrc
  have hwrite : ¬ flags &&& oAccess = oRdonly := by
    rw [haccess]
    decide
  have hstart : ∀ pending, writeStart flags p src pending = .start p src pending := fun pending =>
    if_neg hwrite
  have hloop : p.readerCount ≠ 0 → ∀ pending,
      (PipeWriter.start p src pending).status = .looping := by
    intro hreader pending
    rw [PipeWriter.start, if_neg hpos.ne', if_neg hreader]
  constructor
  · intro hmeans
    by_contra hcond
    obtain ⟨hlong, hreader⟩ := not_or.mp hcond
    have hshort : (PipeWriter.start p src false).Short :=
      ⟨hloop hreader false, hp, hreader, Nat.lt_of_not_le hlong⟩
    cases hflag : isNonblock flags with
    | true =>
        obtain ⟨rounds, w, res, hrun, hback⟩ := hmeans.nonblock hflag false
        rw [hstart, writeBlocking_eq, hflag] at hrun
        exact hshort.waits rfl hrun res hback
    | false =>
        obtain ⟨rounds, w, res, hrun, hback, hless⟩ := hshort.gives_up
        have hall := hmeans.blocks hflag hreader (List.replicate rounds none) w res
          (fun label hmem => by rw [List.eq_of_mem_replicate hmem]; trivial)
          (by rwa [hstart, writeBlocking_eq, hflag]) hback
        exact absurd hall.1 hless.ne
  · intro hcond
    by_cases hreader : p.readerCount = 0
    · refine ⟨fun _ pending => ⟨0, _, ePipe, .nil _, ?_⟩, fun _ hread => absurd hreader hread⟩
      rw [hstart, PipeWriter.start, if_neg hpos.ne', if_pos hreader]
    · have hfits := hcond.resolve_right hreader
      have hfirst : ∀ pending, (PipeWriter.start p src pending).Fits p src := fun pending =>
        ⟨rfl, .inl ⟨hloop hreader pending, rfl, rfl⟩⟩
      constructor
      · intro _ pending
        obtain ⟨hstatus, hsame, hall⟩ :
            ((PipeWriter.start p src pending).round (writeBlocking flags)).status =
              (PipeWriter.start p src pending).status ∧ _ :=
          PipeWriter.round_all hsrc rfl hreader hfits
        have hagain := hstatus.trans (hloop hreader pending)
        have hrun : Run (WriterStep (writeBlocking flags)) (.start p src pending) [none, none]
            (((PipeWriter.start p src pending).round (writeBlocking flags)).round
              (writeBlocking flags)) :=
          .cons (.round (hloop hreader pending)) (.cons (.round hagain) (.nil _))
        rw [PipeWriter.round_done (hall.trans (congrArg List.length hsame.symm)), hall] at hrun
        rw [hstart]
        exact ⟨2, _, src.length, hrun, rfl⟩
      · intro _ _ labels w res _ hrun hback
        rw [hstart] at hrun
        have hend := hrun.invariant (PipeWriter.Fits p src)
          (fun _ _ _ hstep hinv => hinv.step hsrc hfits hreader hstep) (hfirst false)
        rcases hend.progress with ⟨hstatus, -⟩ | ⟨hstatus, -⟩ | ⟨hstatus, hall⟩
        · cases hstatus.symm.trans hback
        · cases hstatus.symm.trans hback
        · exact ⟨hall, (CallStatus.returned.inj (hstatus.symm.trans hback)).symm⟩

/-- `O_NONBLOCK` means the same for both ends of a pipe exactly when the bytes to write
fit at once, or nobody reads. -/
theorem nonblock_means_iff {rflags wflags : BitVec 32} {p : PipeBuffer} {len : Nat}
    {src : List UInt8} (hp : p.Heads) (haccess : wflags &&& oAccess = oWronly) (hsrc : src ≠ []) :
    NonblockMeans rflags wflags p len src ↔ src.length ≤ p.available ∨ p.readerCount = 0 := by
  rw [NonblockMeans, and_iff_right (readMeans rflags p len)]
  exact writeMeans_iff hp haccess hsrc

theorem nonblock_means_one : NonblockMeans oRdonly oWronly oneByteLeft 1 [7] ↔
    [(7 : UInt8)].length ≤ oneByteLeft.available ∨ oneByteLeft.readerCount = 0 :=
  nonblock_means_iff ⟨by decide, by decide⟩ (by decide) (by decide)

/-- Two bytes do not fit: with the flag the writer yields, and without it it comes back
with one of them. -/
theorem nonblock_inverted :
    (((PipeWriter.start oneByteLeft [7, 8] false).round
        (writeBlocking (oWronly ||| oNonblock))).round
          (writeBlocking (oWronly ||| oNonblock))).status = .yielding ∧
      (((PipeWriter.start oneByteLeft [7, 8] false).round (writeBlocking oWronly)).round
        (writeBlocking oWronly)).status = .returned 1 ∧
      ¬ NonblockMeans oRdonly oWronly oneByteLeft 2 [7, 8] := by
  refine ⟨by decide, by decide, fun hmeans => ?_⟩
  have hrun : Run (WriterStep (writeBlocking oWronly)) (writeStart oWronly oneByteLeft [7, 8] false)
      [none, none] (((PipeWriter.start oneByteLeft [7, 8] false).round
        (writeBlocking oWronly)).round (writeBlocking oWronly)) :=
    .cons (.round rfl) (.cons (.round rfl) (.nil _))
  have hall := hmeans.2.blocks rfl (by decide) [none, none] _ 1
    (by simp [KeepsReader]) hrun (by decide)
  exact absurd hall.2 (by decide)

end GlitchedOS
